import Arbor.Proofs.Package.Lockfiles

/-!
Lockfiles as finite maps from written names to sources and commits.

Whatever was put under a name last is found under it (`Lockfile.find?_updateAll`), whatever the
packages were before. Bringing a lockfile into its written form sorts the packages by name and keeps
those of one name in their order (`Lockfile.sorts_entries`), so that the first of them, the one that
is found, stays the same.
-/

set_option autoImplicit false

namespace Arbor.Package

namespace Lockfile

variable {l : Lockfile}

/-! ## Runs of puts -/

/-- Puts packages one after the other; some of them may be blank. -/
def updateAll (l : Lockfile) (ps : List (Option Locked)) : Lockfile :=
  ps.foldl (fun l p => (l.update p).2) l

/-- The packages with the same written name. -/
def underName (name : String) (ps : List (Option Locked)) : List Locked :=
  (ps.filterMap id).filter fun p => packageName p.name = packageName name

theorem underName_cons (name : String) (p : Locked) (ps : List (Option Locked)) :
    underName name (some p :: ps) =
      if packageName p.name = packageName name then p :: underName name ps
      else underName name ps := by
  change ((p :: ps.filterMap id).filter _) = _
  rw [List.filter_cons]
  simp only [decide_eq_true_eq]
  rfl

/-- A package as it is found under a name. -/
def written (name : String) (p : Locked) : Locked :=
  ⟨packageName name, Text.trim p.source, Text.trim p.commit⟩

theorem find?_updateAll (l : Lockfile) (ps : List (Option Locked)) (name : String) :
    (l.updateAll ps).find? name =
      ((underName name ps).getLast?.map (written name)).or (l.find? name) := by
  induction ps generalizing l with
  | nil => rfl
  | cons p ps ih =>
    cases p with
    | none => exact ih l
    | some p =>
      -- What the first put leaves is what the others start from.
      have hput : (l.updateAll (some p :: ps)).find? name =
          ((l.put p).updateAll ps).find? name := rfl
      rw [hput, ih (l.put p), find?_put, underName_cons]
      by_cases hname : packageName p.name = packageName name
      · have hp : p.normalize = written name p := by rw [Locked.normalize, hname, written]
        rw [if_pos hname, if_pos hname, List.getLast?_cons, hp]
        cases (underName name ps).getLast? with
        | none => rfl
        | some q => rfl
      · rw [if_neg hname, if_neg hname]

theorem update_unchanged_iff (l : Lockfile) (p : Option Locked) :
    (l.update p).1 = false ↔ (l.update p).2.packages = l.packages := by
  cases p with
  | none => simp [update]
  | some p =>
    have hbne : (l.update (some p)).1 = false ↔ l.find? p.name = some p.normalize := by
      simp [update]
    rw [hbne]
    constructor
    · intro hfind
      change (l.put p).packages = l.packages
      rw [put_of_find? hfind]
    · intro hsame
      have hfound := find?_put l p p.name
      rw [if_pos rfl] at hfound
      rw [← hfound, find?, find?]
      exact congrArg (lookup (packageName p.name)) hsame.symm

/-! ## Distinct names -/

/-- The names of the packages are in their written form, and no two packages have the same one. -/
structure Keyed (l : Lockfile) : Prop where
  named : ∀ p, some p ∈ l.packages → packageName p.name = p.name
  distinct : ((l.packages.filterMap id).map (·.name)).Nodup

theorem names_replace (p : Locked) (ps : List (Option Locked)) :
    ((replace p ps).filterMap id).map (·.name) =
      if p.name ∈ (ps.filterMap id).map (·.name) then (ps.filterMap id).map (·.name)
      else (ps.filterMap id).map (·.name) ++ [p.name] := by
  induction ps with
  | nil => rfl
  | cons q ps ih =>
    cases q with
    | none => exact ih
    | some q =>
      change _ = if p.name ∈ q.name :: (ps.filterMap id).map (·.name) then
        q.name :: (ps.filterMap id).map (·.name) else q.name :: (ps.filterMap id).map (·.name) ++ _
      unfold replace
      by_cases hq : q.name = p.name
      · rw [if_pos hq, if_pos (by simp [hq])]
        change p.name :: _ = _
        rw [hq]
      · rw [if_neg hq]
        change q.name :: ((replace p ps).filterMap id).map (·.name) = _
        have hmem : p.name ∈ q.name :: (ps.filterMap id).map (·.name) ↔
            p.name ∈ (ps.filterMap id).map (·.name) := by
          rw [List.mem_cons, or_iff_right (Ne.symm hq)]
        simp only [ih, hmem]
        split <;> rfl

theorem Keyed.put (h : l.Keyed) (p : Locked) : (l.put p).Keyed where
  named := by
    intro q hq
    obtain rfl | hq := mem_replace hq
    · exact packageName_packageName p.name
    · exact h.named q hq
  distinct := by
    change (((replace p.normalize l.packages).filterMap id).map (·.name)).Nodup
    rw [names_replace]
    split
    next => exact h.distinct
    next hnew =>
      rw [List.nodup_append]
      refine ⟨h.distinct, List.nodup_singleton _, fun a ha b hb hab => hnew ?_⟩
      rw [← List.mem_singleton.1 hb, ← hab]
      exact ha

theorem Keyed.updateAll (h : l.Keyed) (ps : List (Option Locked)) : (l.updateAll ps).Keyed := by
  induction ps generalizing l with
  | nil => exact h
  | cons p ps ih =>
    cases p with
    | none => exact ih h
    | some p => exact ih (h.put p)

/-! ## The written form -/

/-- The names of the packages are in their written form; several packages may have the same one. -/
abbrev Sanitised (l : Lockfile) : Prop := ∀ p, some p ∈ l.packages → packageName p.name = p.name

theorem sorts_entries (l : Lockfile) :
    Sorts ((l.packages.filterMap id).map Locked.normalize) l.entries := sorts_sortByName _

theorem entries_normalize (l : Lockfile) : l.normalize.entries = l.entries := by
  have hblank : l.normalize.packages.filterMap id = l.entries := by
    change (l.entries.map some).filterMap id = l.entries
    rw [List.filterMap_map]
    exact List.filterMap_some
  have hsettled : l.entries.map Locked.normalize = l.entries := by
    refine (List.map_congr_left fun p hp => ?_).trans (List.map_id _)
    exact normalize_settled l p (List.mem_map_of_mem hp)
  rw [entries, hblank, hsettled, sortByName_of_ascending (sorts_entries l).ascending]

theorem normalize_normalize (l : Lockfile) : l.normalize.normalize = l.normalize := by
  have hentries := entries_normalize l
  unfold normalize at hentries ⊢
  rw [hentries]
  simp only [packageName_packageName, Text.trim_trim]

theorem find?_normalize_trimmed (h : l.Sanitised) (name : String) :
    l.normalize.find? name =
      (l.find? name).map fun p => ⟨p.name, Text.trim p.source, Text.trim p.commit⟩ := by
  rw [find?_normalize h]
  cases hp : l.find? name with
  | none => rfl
  | some p => rw [Option.map_some, Option.map_some, Locked.normalize, h p (mem_of_lookup hp)]

theorem load_normalized {t : Files.Tree} {here path : String} (h : load t here path = .ok l) :
    l.normalize = l := by
  obtain ⟨raw, rfl⟩ := eq_normalize_of_load h
  exact normalize_normalize raw

theorem save_normalized {t t' : Files.Tree} {here now path : String}
    (h : (l.save t here now path).1 = .ok t') :
    (l.save t here now path).2.packages = l.normalize.packages := by
  obtain hpath | hpath := eq_or_ne (l.target path) ""
  · rw [save_nowhere hpath] at h
    cases h
  · rw [save_eq hpath]
    rfl

/-! ## Lockfiles as finite maps -/

/-- A lockfile is a finite map from names to sources and commits. The last package put under a name
is found, putting says whether it changed anything and keeps the names apart, and the written form,
in which every lockfile is loaded and saved, is in order, complete and the same map. -/
theorem finite_map (l : Lockfile) :
    (∀ ps name, (l.updateAll ps).find? name =
      ((underName name ps).getLast?.map (written name)).or (l.find? name)) ∧
    (∀ p, (l.update p).1 = false ↔ (l.update p).2.packages = l.packages) ∧
    (l.Keyed → ∀ ps, (l.updateAll ps).Keyed) ∧
    (l.normalize.packages = l.entries.map some ∧
      Sorts ((l.packages.filterMap id).map Locked.normalize) l.entries) ∧
    l.normalize.normalize = l.normalize ∧
    (l.Sanitised → ∀ name, l.normalize.find? name =
      (l.find? name).map fun p => ⟨p.name, Text.trim p.source, Text.trim p.commit⟩) ∧
    (∀ t here path, load t here path = .ok l → l.normalize = l) ∧
    ∀ t t' here now path, (l.save t here now path).1 = .ok t' →
      (l.save t here now path).2.packages = l.normalize.packages := by
  exact ⟨find?_updateAll l, update_unchanged_iff l, Keyed.updateAll, ⟨rfl, sorts_entries l⟩,
    normalize_normalize l, find?_normalize_trimmed, fun _ _ _ => load_normalized,
    fun _ _ _ _ _ => save_normalized⟩

/-- A lockfile as one edited by hand: out of order, with a blank package and one name twice. -/
def edited : Lockfile :=
  ⟨"", "demo", "then", "tool",
    [some ⟨"shapes", " path:../shapes ", ""⟩, none, some ⟨"colors", "path:../colors", ""⟩,
      some ⟨"shapes", "git:shapes", "abc"⟩]⟩

/-- The first of two packages of one name is found before and after they are brought into order, and
the one that is put last once it is put. -/
theorem finite_map_edited :
    edited.normalize.packages =
      [some ⟨"colors", "path:../colors", ""⟩, some ⟨"shapes", "path:../shapes", ""⟩,
        some ⟨"shapes", "git:shapes", "abc"⟩] ∧
    edited.normalize.find? "Shapes" = some ⟨"shapes", "path:../shapes", ""⟩ ∧
    (edited.updateAll [some ⟨"Shapes", "a", ""⟩, none, some ⟨"shapes", " b", "1"⟩]).find? "SHAPES" =
      some ⟨"shapes", "b", "1"⟩ ∧
    ((start "demo" "tool" "now").updateAll edited.packages).Keyed := by
  have hsanitised : edited.Sanitised := by
    intro p hp
    simp only [edited, List.mem_cons, List.not_mem_nil, or_false, Option.some.injEq, reduceCtorEq,
      false_or] at hp
    obtain rfl | rfl | rfl := hp <;> decide +kernel
  obtain ⟨hlast, -, -, -, -, hfind, -⟩ := finite_map edited
  obtain ⟨-, -, hkeyed, -⟩ := finite_map (start "demo" "tool" "now")
  refine ⟨by decide +kernel, ?_, ?_, hkeyed ⟨nofun, .nil⟩ _⟩
  · rw [hfind hsanitised]
    decide +kernel
  · rw [hlast]
    decide +kernel

end Lockfile

end Arbor.Package
