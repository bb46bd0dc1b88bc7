import Arbor.Proofs.Files.Trees
import Arbor.Proofs.Package.Parts
import Mathlib.Data.List.Perm.Subperm

/-!
What every manifest that was read is like.

However it was written, its name is the name of a directory, its modules have different names and
its dependencies stand in the order of theirs (`Manifest.Proper`). A manifest that was loaded stands
in the tree at its path (`Manifest.Stands`), so the path alone tells manifests apart, and there are no
more of them than entries of the tree.
-/

set_option autoImplicit false

namespace Arbor.Package

open Files (Tree)
open Yaml (Trail Reading)
open Yaml.Reading (Yields)

namespace Draft

/-! ## Modules -/

theorem names_of_moduleProblems {seen : List String} {qs : List (String × String)}
    (h : moduleProblems seen qs = []) :
    (qs.map Prod.fst).Nodup ∧ ∀ name ∈ qs.map Prod.fst, name ∉ seen := by
  induction qs generalizing seen with
  | nil => exact ⟨List.nodup_nil, nofun⟩
  | cons q qs ih =>
    obtain ⟨name, file⟩ := q
    unfold moduleProblems at h
    split at h
    next => cases h
    next =>
      split at h
      next => cases h
      next hseen =>
        obtain ⟨hnodup, hfresh⟩ := ih (List.append_eq_nil_iff.1 h).2
        have hseen : name ∉ seen := by simpa using hseen
        refine ⟨List.nodup_cons.2 ⟨fun hin => hfresh name hin List.mem_cons_self, hnodup⟩, ?_⟩
        refine List.forall_mem_cons.2 ⟨hseen, fun other hin hold => ?_⟩
        exact hfresh other hin (List.mem_cons_of_mem _ hold)

/-! ## Dependencies -/

variable {anchored : Array (Option Yaml.Node)} {fuel : Nat}

theorem foldlM_keeps {ε α β : Type} {f : β → α → Except ε β} {kept : β → Prop}
    (hf : ∀ b a b', kept b → f b a = .ok b' → kept b') {l : List α} {b b' : β} (hb : kept b)
    (h : l.foldlM f b = .ok b') : kept b' := by
  induction l generalizing b with
  | nil =>
    cases h
    exact hb
  | cons a l ih =>
    rw [List.foldlM_cons] at h
    obtain ⟨next, hstep, h⟩ := exists_of_bind_eq_ok h
    exact ih (hf b a next hb hstep) h

theorem readDependencies_ordered {n : Yaml.Node} {t : Table (Option Dependency)}
    (h : readDependencies anchored fuel n = .ok t) : t.Ordered := by
  cases n with
  | scalar => cases h
  | sequence => cases h
  | reference => cases h
  | mapping tag pairs line =>
    have hstart : Table.Ordered ([] : Table (Option Dependency)) := List.Pairwise.nil
    refine foldlM_keeps (fun t p t' ht hstep => ?_) hstart h
    obtain ⟨written, -, hstep⟩ := exists_of_bind_eq_ok hstep
    simp only at hstep
    split at hstep
    next => cases hstep
    next =>
      obtain ⟨d, -, hstep⟩ := exists_of_bind_eq_ok hstep
      obtain rfl := Except.ok.inj hstep
      exact ht.insert _ d

theorem barePlan_keeps (fuel : Nat) : (barePlan fuel).Keeps Table.Ordered := by
  intro trail key k v t ht
  refine .andThen fun found => ?_
  simp only
  split
  · split
    · split
      · exact .andThen fun _ => .pure (ht.insert _ none)
      · exact .andThen fun _ => .pure ht
    · refine .andThen fun d => ?_
      cases d with
      | none => exact .pure ht
      | some d => exact .pure (ht.insert _ _)
  · exact .pure ht

theorem described_ordered {ps : Table (Option Dependency)} (h : ps.Ordered) :
    Table.Ordered (ps.filterMap fun (name, dep) => dep.map (name, ·)) := by
  have hkeys : List.Sublist ((ps.filterMap fun (name, dep) => dep.map (name, ·)).map Prod.fst)
      (ps.map Prod.fst) := by
    clear h
    induction ps with
    | nil => exact .slnil
    | cons p ps ih =>
      obtain ⟨name, dep⟩ := p
      cases dep with
      | none => exact ih.cons _
      | some dep => exact ih.cons_cons _
  exact List.Pairwise.sublist hkeys h

def Sorted (d : Draft) : Prop := d.dependencies.Ordered

theorem bareDependencies_yields (fuel : Nat) (trail : Trail) (n : Yaml.Node) {d : Draft}
    (hd : d.Sorted) : Yields (bareDependencies fuel trail n d) Sorted := by
  cases n with
  | mapping tag pairs line =>
    refine .andThen fun distinct => ?_
    split
    · have hstart : Table.Ordered ([] : Table (Option Dependency)) := List.Pairwise.nil
      refine (Reading.entries_yields (barePlan_keeps fuel) fuel trail pairs none hstart).bind ?_
      exact fun r hr => .pure hr
    · exact .pure hd
  | scalar | sequence | reference =>
    unfold bareDependencies
    exact bareMisfit_yields _ trail _ hd

theorem parse_sorted {bytes : List UInt8} {d : Draft} (h : Draft.parse bytes = .ok (some d)) :
    d.Sorted := by
  obtain ⟨s, r, hdoc, -⟩ := parse_eq_ok_iff.1 h
  refine parse_offered "dependencies" Sorted h hdoc List.Pairwise.nil ?_ rfl ?_ ?_
  · intro d d' other hne hsame hd
    unfold Sorted
    rwa [hsame.dependencies hne]
  · intro n t d _ _ hread _
    exact readDependencies_ordered hread
  · intro n trail d _ _ hd
    exact Reading.yields_iff.1 (bareDependencies_yields s.depth trail n hd) s.anchored

end Draft

namespace Manifest

/-! ## What was parsed -/

structure Proper (m : Manifest) : Prop where
  name : ∃ written, m.name = packageName written
  modules : (m.modules.map Prod.fst).Nodup
  dependencies : m.dependencies.Ordered

theorem parse_eq {bytes : List UInt8} {d : Draft} (h : Draft.parse bytes = .ok (some d))
    (path : String) : parse bytes path = (d.manifest path).mapError .invalid := by
  unfold parse
  simp only [h, Except.mapError, bind, Except.bind]

/-- Without a draft there is no manifest and nothing is invalid. -/
theorem parse_cases (bytes : List UInt8) (path : String) :
    (∃ d, Draft.parse bytes = .ok (some d)) ∨ parse bytes path = .error (.empty path) ∨
      ∃ fault, parse bytes path = .error (.unreadable path fault) := by
  unfold parse
  cases Draft.parse bytes with
  | error fault => exact .inr (.inr ⟨fault, rfl⟩)
  | ok d =>
    cases d with
    | none => exact .inr (.inl rfl)
    | some d => exact .inl ⟨d, rfl⟩

theorem parse_eq_ok_iff {bytes : List UInt8} {path : String} {m : Manifest} :
    parse bytes path = .ok m ↔ ∃ d, Draft.parse bytes = .ok (some d) ∧ d.manifest path = .ok m := by
  constructor
  · intro h
    obtain ⟨d, hd⟩ | hnone | ⟨fault, hnone⟩ := parse_cases bytes path
    · rw [parse_eq hd] at h
      cases hm : d.manifest path with
      | error problems => simp [hm, Except.mapError] at h
      | ok m' => exact ⟨d, hd, by simpa [hm, Except.mapError] using h⟩
    · cases h.symm.trans hnone
    · cases h.symm.trans hnone
  · rintro ⟨d, hd, hm⟩
    rw [parse_eq hd, hm]
    rfl

theorem parse_proper {bytes : List UInt8} {path : String} {m : Manifest}
    (h : parse bytes path = .ok m) : m.Proper ∧ m.path = path := by
  obtain ⟨d, hd, hm⟩ := parse_eq_ok_iff.1 h
  unfold Draft.manifest at hm
  split at hm
  next hproblems =>
    cases hm
    have hmodules : Draft.moduleProblems [] d.modules = [] := by
      have hnil := List.isEmpty_iff.1 hproblems
      simp only [Draft.problems, List.append_eq_nil_iff] at hnil
      exact hnil.1.1.2
    refine ⟨⟨⟨d.name, rfl⟩, (Draft.names_of_moduleProblems hmodules).1, ?_⟩, rfl⟩
    exact Draft.described_ordered (Draft.parse_sorted hd)
  next => cases hm

/-! ## What was loaded -/

/-- The manifest is what the file at its path holds. -/
def Stands (t : Tree) (m : Manifest) : Prop :=
  ∃ (p : Files.Place) (bytes : List UInt8), (∀ e ∈ p, Files.Ordinary e) ∧ m.path = p.path ∧
    t.at? p = some (.file bytes) ∧ parse bytes m.path = .ok m

variable {t : Tree} {here path : String} {m : Manifest}

theorem load_stands (hhere : Files.isAbsolute here = true) (h : load t here path = .ok m) :
    Stands t m := by
  obtain ⟨p, hp, hfull⟩ := Files.absolute_eq_path hhere path
  unfold load at h
  split at h
  next => cases h
  next =>
    simp only [hfull] at h
    cases hlook : t.look .open here p.path with
    | error e =>
      rw [hlook] at h
      cases h
    | ok entry =>
      rw [hlook] at h
      cases entry with
      | directory => cases h
      | file bytes =>
        change parse bytes p.path = .ok m at h
        have hpath := (parse_proper h).2
        exact ⟨p, bytes, hp, hpath, Tree.at?_of_look hp hlook, by rwa [hpath]⟩

theorem Stands.proper (h : Stands t m) : m.Proper := by
  obtain ⟨-, bytes, -, -, -, hparse⟩ := h
  exact (parse_proper hparse).1

theorem Stands.eq_of_path {m' : Manifest} (h : Stands t m) (h' : Stands t m')
    (hpath : m.path = m'.path) : m = m' := by
  obtain ⟨p, bytes, hp, hmp, hat, hparse⟩ := h
  obtain ⟨p', bytes', hp', hmp', hat', hparse'⟩ := h'
  have hplaces : p.reverse = p'.reverse := by
    rw [← Files.names_path fun e he => (hp e he).plain,
      ← Files.names_path fun e he => (hp' e he).plain, ← hmp, ← hmp', hpath]
  obtain rfl := List.reverse_injective hplaces
  cases hat.symm.trans hat'
  rw [hpath] at hparse
  cases hparse.symm.trans hparse'
  rfl

theorem length_le_of_stands {ms : List Manifest} (h : ∀ a ∈ ms, Stands t a)
    (hnodup : (ms.map (·.path)).Nodup) : ms.length ≤ t.entries.length := by
  have hsubset : ms.map (·.path) ⊆ (t.entries.map Prod.fst).map Files.Place.path := by
    intro path hpath
    obtain ⟨a, ha, rfl⟩ := List.mem_map.1 hpath
    obtain ⟨p, bytes, -, hap, hat, -⟩ := h a ha
    have hne : p ≠ [] := by
      rintro rfl
      cases hat
    exact List.mem_map.2 ⟨p, Tree.mem_of_at? hne hat, hap.symm⟩
  have hlength := (List.subperm_of_subset hnodup hsubset).length_le
  simpa using hlength

end Manifest

end Arbor.Package
