import Arbor.Proofs.Package.Loading
import Arbor.Proofs.Package.Manifests

/-!
Which programs load, and what they are made of.

Loading a manifest that was itself loaded always comes to an end, and it succeeds exactly if nothing
is wrong with the packages that are reached. The modules of a program are those of its packages,
listed depth first.
-/

set_option autoImplicit false

namespace Arbor.Package

open Files (Tree)

namespace Circumstances

variable {c : Circumstances} {r : Remote} {t : Tree} {root a : Manifest}

theorem edge_stands (hhere : Files.isAbsolute c.here = true) {p : String × Dependency}
    {x : Resolved × Manifest} (h : (c.survey r t).edge a p = .ok x) : x.2.Stands t := by
  simp only [survey, bind, Except.bind] at h
  split at h
  next => cases h
  next r _ =>
    split at h
    next => cases h
    next child hchild =>
      cases h
      cases hload : Manifest.load t c.here (Files.join r.directory Manifest.fileName) with
      | error e =>
        rw [hload] at hchild
        cases hchild
      | ok m =>
        rw [hload] at hchild
        cases hchild
        exact Manifest.load_stands hhere hload

theorem reaches_stands (hhere : Files.isAbsolute c.here = true) (hroot : root.Stands t)
    (h : (c.survey r t).Reaches root a) : a.Stands t := by
  cases h with
  | refl => exact hroot
  | tail _ hd =>
    obtain ⟨p, -, x, hx⟩ := hd
    exact edge_stands hhere hx

theorem source_eq {q : String × String} {x : SourceModule}
    (h : (c.survey r t).source a q = .ok x) : x.name = q.1 ∧ x.package = a.name := by
  simp only [survey, bind, Except.bind] at h
  split at h
  next => cases h
  next =>
    split at h
    next => cases h
    next =>
      split at h
      next => cases h
      next =>
        cases h
        exact ⟨rfl, rfl⟩

theorem survey_bounded (hhere : Files.isAbsolute c.here = true) (hroot : root.Stands t) :
    (c.survey r t).Bounded root t.entries.length where
  eq_of_path := fun ha hb =>
    (reaches_stands hhere hroot ha).eq_of_path (reaches_stands hhere hroot hb)
  length_le := fun h => Manifest.length_le_of_stands fun a ha => reaches_stands hhere hroot (h a ha)
  names_nodup := fun ha => (reaches_stands hhere hroot ha).proper.modules
  source_eq := source_eq

end Circumstances

/-! ## Errors -/

/-- The error is about one dependency or one module, not about how packages hang together. -/
def LoadError.IsLocal : LoadError → Prop
  | .cycle _ | .declaredTwice .. | .tooDeep | .cancelled | .noManifest => False
  | _ => True

theorem isLocal_of_edge {c : Circumstances} {r : Remote} {t : Tree} {m : Manifest}
    {p : String × Dependency} {e : LoadError} (h : (c.survey r t).edge m p = .error e) : e.IsLocal := by
  simp only [Circumstances.survey, bind, Except.bind] at h
  split at h
  next e' he =>
    cases h
    unfold Circumstances.find at he
    split at he
    · split at he
      · cases he
        trivial
      · split at he
        · cases he
          trivial
        · cases he
    · split at he
      · cases he
        trivial
      · cases he
        trivial
      · cases he
  next r _ =>
    cases hload : Manifest.load t c.here (Files.join r.directory Manifest.fileName) with
    | error e' =>
      rw [hload] at h
      cases h
      trivial
    | ok child =>
      rw [hload] at h
      cases h

theorem isLocal_of_source {c : Circumstances} {r : Remote} {t : Tree} {m : Manifest}
    {q : String × String} {e : LoadError} (h : (c.survey r t).source m q = .error e) : e.IsLocal := by
  simp only [Circumstances.survey, bind, Except.bind] at h
  cases hformat : Format.ofPath (m.resolve q.2) with
  | error e' =>
    rw [hformat] at h
    cases h
    trivial
  | ok format =>
    rw [hformat] at h
    cases hbytes : t.read c.here (m.resolve q.2) with
    | error e' =>
      rw [hbytes] at h
      cases h
      trivial
    | ok bytes =>
      rw [hbytes] at h
      simp only [Except.mapError] at h
      cases htree : format.readModule bytes with
      | error e' =>
        rw [htree] at h
        cases h
        trivial
      | ok tree =>
        rw [htree] at h
        cases h

/-- The packages from the root to one that was passed before. -/
def Survey.Closes (s : Survey) (root : Manifest) (names : List String) : Prop :=
  ∃ ms m, (ms ++ [m]).IsChain s.Depends ∧ (ms ++ [m]).head? = some root ∧ m ∈ ms ∧
    names = (ms ++ [m]).map (·.name)

theorem closes_of_explains {c : Circumstances} {r : Remote} {t : Tree} {root : Manifest}
    {names : List String} (h : (c.survey r t).Explains root (.cycle names)) :
    (c.survey r t).Closes root names := by
  generalize he : LoadError.cycle names = e at h
  cases h with
  | unresolved _ _ hx =>
    subst he
    exact (isLocal_of_edge hx).elim
  | unread _ _ hx =>
    subst he
    exact (isLocal_of_source hx).elim
  | cycle hsteps hhead hin =>
    cases he
    exact ⟨_, _, hsteps, hhead, hin, rfl⟩
  | twice => cases he

theorem not_explains_tooDeep {c : Circumstances} {r : Remote} {t : Tree} {root : Manifest} :
    ¬ (c.survey r t).Explains root .tooDeep := by
  intro h
  generalize he : LoadError.tooDeep = e at h
  cases h with
  | unresolved _ _ hx =>
    subst he
    exact isLocal_of_edge hx
  | unread _ _ hx =>
    subst he
    exact isLocal_of_source hx
  | cycle => cases he
  | twice => cases he

/-! ## Programs -/

/-- The program is made of the listed packages: all that are reached, each one once and after those
it depends on. -/
structure Program.Comprises (s : Survey) (root : Manifest) (p : Program) (order : List Manifest) :
    Prop where
  manifest : p.manifest = root
  depthFirst : s.Lists [] root order
  sorted : ∀ a ∈ order, a.dependencies.Ordered
  all : ∀ a, a ∈ order ↔ s.Reaches root a
  once : (order.map (·.path)).Nodup
  after : ∀ l a r, order = l ++ a :: r → ∀ b, s.Depends a b → b ∈ l
  last : order.getLast? = some root
  modules : p.modules = order.flatMap s.sources
  names : p.modules.map (·.name) = order.flatMap fun a => a.modules.map Prod.fst

theorem Program.load_tracks {c : Circumstances} {r : Remote} {t : Tree} (hr : r.Failing)
    (ht : t.Sound) (hc : c.cancelled = false) (m : Manifest) (more : Nat) :
    match (c.survey r t).explore (t.entries.length + 2 + more) [] m .nothing with
    | .ok f => load c t (some m) r more = (.ok ⟨m, f.modules, f.dependencies⟩, t)
    | .error e => (load c t (some m) r more).1 = .error e := by
  have h := Loading.walk_tracks hr ht hc (t.entries.length + 2 + more) [] m .nothing
  have hload : load c t (some m) r more = collect m (((Loading.walk r c).go
      (t.entries.length + 2 + more) [] m).run.run (.start t)) := rfl
  rw [hload]
  revert h
  cases (c.survey r t).explore (t.entries.length + 2 + more) [] m .nothing with
  | error e =>
    change (((Loading.walk r c).go _ [] m).run.run (.start t)).1 = .error e → _
    generalize ((Loading.walk r c).go _ [] m).run.run (.start t) = result
    obtain ⟨done, p⟩ := result
    rintro rfl
    rfl
  | ok f =>
    change ((Loading.walk r c).go _ [] m).run.run (.start t) = _ → _
    intro h
    rw [h]
    rfl

theorem Program.load_run {c : Circumstances} {r : Remote} {t : Tree} (hr : r.Failing) (ht : t.Sound)
    (hc : c.cancelled = false) (m : Manifest) (more : Nat) : (load c t (some m) r more).1 =
      ((c.survey r t).explore (t.entries.length + 2 + more) [] m .nothing).map fun f =>
        ⟨m, f.modules, f.dependencies⟩ := by
  have h := load_tracks hr ht hc m more
  cases hx : (c.survey r t).explore (t.entries.length + 2 + more) [] m .nothing with
  | error e =>
    rw [hx] at h
    exact h
  | ok f =>
    rw [hx] at h
    rw [h]
    rfl

theorem Survey.Holds.comprises {s : Survey} {root : Manifest} {bound : Nat} {f : Found}
    {order : List Manifest} (hb : s.Bounded root bound)
    (hsorted : ∀ a, s.Reaches root a → a.dependencies.Ordered) (hlists : s.Lists [] root order)
    (h : s.Holds root f order) (hroot : root ∈ order) :
    Program.Comprises s root ⟨root, f.modules, f.dependencies⟩ order where
  manifest := rfl
  depthFirst := hlists
  sorted := fun a ha => hsorted a (h.reached a ha)
  all := fun a => ⟨h.reached a, h.mem_of_reaches hroot⟩
  once := by
    refine List.Nodup.map_on (fun a ha b hb' hpath => ?_) h.nodup
    exact hb.eq_of_path (h.reached a ha) (h.reached b hb') hpath
  after := fun l a r hl b hd => h.before (.single hd) hl
  last := by
    cases hlists with
    | again hin => exact absurd hin (List.not_mem_nil)
    | fresh => exact List.getLast?_concat
  modules := h.modules
  names := by
    simp only [h.modules, List.map_flatMap]
    refine List.flatMap_congr fun a ha => ?_
    exact Survey.names_sources hb (h.readable a ha)

/-- Where nothing can be cloned, loading ends, with the modules of all packages depth first, or with a
true complaint; it succeeds exactly if nothing is wrong with the packages that are reached. -/
theorem load_depth_first {c : Circumstances} {r : Remote} {t : Tree} {path : String} {m : Manifest}
    (hr : r.Failing) (more : Nat) (ht : t.Sound) (hhere : Files.isAbsolute c.here = true)
    (hc : c.cancelled = false) (hm : Manifest.load t c.here path = .ok m) :
    (Program.load c t (some m) r more).1 ≠ .error .tooDeep ∧
    ((∃ p, (Program.load c t (some m) r more).1 = .ok p) ↔ (c.survey r t).Fit m) ∧
    (∀ p, (Program.load c t (some m) r more).1 = .ok p → ∃ order, p.Comprises (c.survey r t) m order) ∧
    (∀ names, (Program.load c t (some m) r more).1 = .error (.cycle names) →
      (c.survey r t).Closes m names) ∧
    (∀ a b, (c.survey r t).Reaches m a → (c.survey r t).Reaches m b → a.path = b.path → a = b) := by
  have hroot := Manifest.load_stands hhere hm
  have hb := Circumstances.survey_bounded (r := r) hhere hroot
  have hfuel : t.entries.length < t.entries.length + 2 + more := by omega
  have hiff := Survey.explore_ok_iff hb hfuel
  have houtcome := Survey.explore_root hb hfuel
  rw [Program.load_run hr ht hc]
  refine ⟨?_, ?_, ?_, ?_, fun a b => hb.eq_of_path⟩
  · intro h
    cases hx : (c.survey r t).explore (t.entries.length + 2 + more) [] m .nothing with
    | ok f =>
      rw [hx] at h
      cases h
    | error e =>
      rw [hx] at h houtcome
      cases h
      exact not_explains_tooDeep houtcome
  · rw [← hiff]
    cases (c.survey r t).explore (t.entries.length + 2 + more) [] m .nothing <;> simp [Except.map]
  · intro p h
    cases hx : (c.survey r t).explore (t.entries.length + 2 + more) [] m .nothing with
    | error e =>
      rw [hx] at h
      cases h
    | ok f =>
      rw [hx] at h houtcome
      cases h
      obtain ⟨order, hlists, hholds, hin⟩ := houtcome
      have hsorted : ∀ a, (c.survey r t).Reaches m a → a.dependencies.Ordered := fun a ha =>
        (Circumstances.reaches_stands hhere hroot ha).proper.dependencies
      exact ⟨order, hholds.comprises hb hsorted hlists hin⟩
  · intro names h
    cases hx : (c.survey r t).explore (t.entries.length + 2 + more) [] m .nothing with
    | ok f =>
      rw [hx] at h
      cases h
    | error e =>
      rw [hx] at h houtcome
      cases h
      exact closes_of_explains houtcome

/-- A package that depends on two others, one of which depends on the second one too. -/
def sharedFiles : Tree where
  entries :=
    [(["lorgn.yml"], .file (Text.bytes "\x7bname: app, dependencies: \x7ba: a, b: b\x7d\x7d")),
     (["a"], .directory),
     (["lorgn.yml", "a"], .file (Text.bytes "\x7bname: a, dependencies: \x7bz: ../b\x7d\x7d")),
     (["b"], .directory),
     (["lorgn.yml", "b"], .file (Text.bytes "\x7bname: b, modules: \x7bm: m.json\x7d\x7d")),
     (["m.json", "b"], .file (Text.bytes "\x7b\"type\":\"Module\",\"items\":[]\x7d"))]

def sharedRoot : Manifest where
  path := "/lorgn.yml"
  name := "app"
  version := ""
  authors := []
  entry := none
  modules := []
  dependencies := [("a", ⟨"", "", "", "", "a"⟩), ("b", ⟨"", "", "", "", "b"⟩)]

theorem ok_of_toOption {ε α : Type} {x : Except ε α} {a : α} (h : x.toOption = some a) :
    x = .ok a := by
  cases x with
  | error e => cases h
  | ok b =>
    cases h
    rfl

set_option maxRecDepth 100000 in
theorem load_depth_first_shared :
    sharedFiles.Sound ∧ Manifest.load sharedFiles "/" "lorgn.yml" = .ok sharedRoot ∧
    ∃ p order, (Program.load ⟨"/", none, none, false⟩ sharedFiles (some sharedRoot)).1 = .ok p ∧
      p.Comprises (Circumstances.survey ⟨"/", none, none, false⟩ .unreachable sharedFiles) sharedRoot order ∧
      p.modules.map (·.name) = ["m"] ∧ p.dependencies.map (·.name) = ["z", "a", "b"] := by
  have hsound : sharedFiles.Sound := Tree.sound_of_entries (by decide +kernel)
  have hmanifest : Manifest.load sharedFiles "/" "lorgn.yml" = .ok sharedRoot :=
    ok_of_toOption (by decide +kernel)
  have hprogram : (Program.load ⟨"/", none, none, false⟩ sharedFiles (some sharedRoot)).1.toOption.map
      (fun p => (p.modules.map (·.name), p.dependencies.map (·.name))) =
      some (["m"], ["z", "a", "b"]) := by
    decide +kernel
  have hload :=
    load_depth_first (c := ⟨"/", none, none, false⟩) Remote.failing_unreachable 0 hsound
      (by decide +kernel) rfl hmanifest
  cases hp : (Program.load ⟨"/", none, none, false⟩ sharedFiles (some sharedRoot)).1 with
  | error e =>
    rw [hp] at hprogram
    cases hprogram
  | ok p =>
    rw [hp] at hprogram
    obtain ⟨order, horder⟩ := hload.2.2.1 p hp
    simp only [Except.toOption, Option.map_some, Option.some.injEq, Prod.mk.injEq] at hprogram
    exact ⟨hsound, hmanifest, p, order, rfl, horder, hprogram⟩

end Arbor.Package
