import Arbor.Command.Project
import Arbor.Proofs.Package.Reloading
import Mathlib.Logic.Function.Iterate

/-!
The nearest manifest.

A search begins at a directory and goes from each directory to the one it lies in, until it is at
one that lies in itself. What comes of one directory is a matter of what is at the path of its
manifest there: a file or an error decides the search, and it goes on if nothing is there or
another directory.

* `Climbs`: the search as it goes, from directory to directory.
* `Nearest`: what it is to find, said of all directories above at once.
* `manifest_nearest`: the search ends with just that, from wherever it begins.
-/

set_option autoImplicit false

namespace Arbor.Command

open Package (Manifest)

def manifestIn (dir : String) : String := Files.join dir Manifest.fileName

/-- The directory so many steps above a path. -/
def ancestor (start : String) (k : Nat) : String := Files.directory^[k] start

/-- What is at the path of the manifest in a directory ends the search with this answer. -/
inductive Decides (t : Files.Tree) (dir : String) : Except ProjectError String → Prop where
  | found {bytes : List UInt8} :
      t.look .stat "/" (manifestIn dir) = .ok (.file bytes) → Decides t dir (.ok (manifestIn dir))
  | failed {e : Files.Error} :
      t.look .stat "/" (manifestIn dir) = .error e → e.reason ≠ .missing →
      Decides t dir (.error (.search e))

/-- There is nothing at the path of the manifest in a directory, or a directory. -/
inductive Passes (t : Files.Tree) (dir : String) : Prop where
  | missing {e : Files.Error} :
      t.look .stat "/" (manifestIn dir) = .error e → e.reason = .missing → Passes t dir
  | directory : t.look .stat "/" (manifestIn dir) = .ok .directory → Passes t dir

/-- A search that begins at this directory ends with this answer. -/
inductive Climbs (t : Files.Tree) : String → Except ProjectError String → Prop where
  | here {dir : String} {r : Except ProjectError String} : Decides t dir r → Climbs t dir r
  | top {dir : String} : Passes t dir → Files.directory dir = dir →
      Climbs t dir (.error .notFound)
  | up {dir : String} {r : Except ProjectError String} : Passes t dir → Files.directory dir ≠ dir →
      Climbs t (Files.directory dir) r → Climbs t dir r

/-- The answer is that of the nearest directory that decides, and that there is no manifest only if
no directory decides. -/
inductive Nearest (t : Files.Tree) (start : String) : Except ProjectError String → Prop where
  | decided {k : Nat} {r : Except ProjectError String} : Decides t (ancestor start k) r →
      (∀ j < k, Passes t (ancestor start j)) → Nearest t start r
  | nowhere : (∀ k, Passes t (ancestor start k)) → Nearest t start (.error .notFound)

variable {t : Files.Tree} {start dir : String} {r r' : Except ProjectError String}

/-! ## One directory -/

theorem decides_or_passes (t : Files.Tree) (dir : String) :
    (∃ r, Decides t dir r) ∨ Passes t dir := by
  cases hlook : t.look .stat "/" (manifestIn dir) with
  | ok entry =>
    cases entry with
    | directory => exact .inr (.directory hlook)
    | file bytes => exact .inl ⟨_, .found hlook⟩
  | error e =>
    by_cases he : e.reason = .missing
    · exact .inr (.missing hlook he)
    · exact .inl ⟨_, .failed hlook he⟩

theorem Decides.unique (h : Decides t dir r) (h' : Decides t dir r') : r = r' := by
  cases h with
  | found hlook =>
    cases h' with
    | found => rfl
    | failed hlook' => cases hlook.symm.trans hlook'
  | failed hlook =>
    cases h' with
    | found hlook' => cases hlook.symm.trans hlook'
    | failed hlook' =>
      cases hlook.symm.trans hlook'
      rfl

theorem Decides.not_passes (h : Decides t dir r) : ¬ Passes t dir := by
  intro hp
  cases h with
  | found hlook =>
    cases hp with
    | missing hlook' => cases hlook.symm.trans hlook'
    | directory hlook' => cases hlook.symm.trans hlook'
  | failed hlook he =>
    cases hp with
    | missing hlook' he' =>
      cases hlook.symm.trans hlook'
      exact he he'
    | directory hlook' => cases hlook.symm.trans hlook'

/-! ## All directories above -/

theorem ancestor_succ (start : String) (k : Nat) :
    ancestor start (k + 1) = ancestor (Files.directory start) k :=
  Function.iterate_succ_apply Files.directory k start

theorem ancestor_fixed (h : Files.directory dir = dir) (k : Nat) : ancestor dir k = dir :=
  Function.iterate_fixed h k

theorem Nearest.unique (h : Nearest t start r) (h' : Nearest t start r') : r = r' := by
  cases h with
  | @decided k _ hd hbefore =>
    cases h' with
    | @decided k' _ hd' hbefore' =>
      obtain hlt | rfl | hgt := Nat.lt_trichotomy k k'
      · exact absurd (hbefore' k hlt) hd.not_passes
      · exact hd.unique hd'
      · exact absurd (hbefore k' hgt) hd'.not_passes
    | nowhere hall => exact absurd (hall k) hd.not_passes
  | nowhere hall =>
    cases h' with
    | @decided k' _ hd' _ => exact absurd (hall k') hd'.not_passes
    | nowhere => rfl

/-- What is nearest from the directory above is nearest from a directory that passes. -/
theorem Nearest.below (hp : Passes t start) (h : Nearest t (Files.directory start) r) :
    Nearest t start r := by
  cases h with
  | @decided k _ hd hbefore =>
    refine .decided (k := k + 1) (by rwa [ancestor_succ]) fun j hj => ?_
    cases j with
    | zero => exact hp
    | succ j =>
      rw [ancestor_succ]
      exact hbefore j (Nat.lt_of_succ_lt_succ hj)
  | nowhere hall =>
    refine .nowhere fun k => ?_
    cases k with
    | zero => exact hp
    | succ k =>
      rw [ancestor_succ]
      exact hall k

theorem Climbs.nearest (h : Climbs t start r) : Nearest t start r := by
  induction h with
  | here hd => exact .decided (k := 0) hd nofun
  | @top dir hp hfixed =>
    refine .nowhere fun k => ?_
    rwa [ancestor_fixed hfixed]
  | up hp _ _ ih => exact ih.below hp

/-! ## Places -/

theorem manifestIn_path {p : Files.Place} (hp : ∀ e ∈ p, Files.Ordinary e) :
    manifestIn p.path = Files.Place.path (Manifest.fileName :: p) :=
  Files.join_path (List.forall_mem_cons.2 ⟨Package.fileName_ordinary, hp⟩)

theorem Decides.examine {p : Files.Place} (hp : ∀ e ∈ p, Files.Ordinary e)
    (h : Decides t p.path r) (above : Except ProjectError String) :
    findManifest.examine t p above = r := by
  unfold findManifest.examine
  cases h with
  | found hlook =>
    rw [manifestIn_path hp] at hlook ⊢
    simp only [hlook]
  | failed hlook he =>
    rw [manifestIn_path hp] at hlook
    simp [hlook, he]

theorem Passes.examine {p : Files.Place} (hp : ∀ e ∈ p, Files.Ordinary e)
    (h : Passes t p.path) (above : Except ProjectError String) :
    findManifest.examine t p above = above := by
  unfold findManifest.examine
  cases h with
  | missing hlook he =>
    rw [manifestIn_path hp] at hlook
    simp [hlook, he]
  | directory hlook =>
    rw [manifestIn_path hp] at hlook
    simp only [hlook]

theorem directory_top : Files.directory (Files.Place.path []) = Files.Place.path [] := by
  decide +kernel

theorem directory_ne {e : String} {p : Files.Place} (hp : ∀ x ∈ e :: p, Files.Ordinary x) :
    Files.directory (Files.Place.path (e :: p)) ≠ Files.Place.path (e :: p) := by
  rw [Files.directory_path hp]
  intro h
  have hnames := congrArg (fun path => (Files.names path).length) h
  simp only [Files.names_path fun x hx => (hp x hx).plain,
    Files.names_path fun x hx => (hp x (List.mem_cons_of_mem e hx)).plain, List.length_reverse,
    List.length_cons] at hnames
  omega

theorem climbs_findManifest (t : Files.Tree) {p : Files.Place} (hp : ∀ e ∈ p, Files.Ordinary e) :
    Climbs t p.path (findManifest t p) := by
  induction p with
  | nil =>
    rw [findManifest]
    obtain ⟨r, hd⟩ | hpass := decides_or_passes t (Files.Place.path [])
    · rw [hd.examine hp]
      exact .here hd
    · rw [hpass.examine hp]
      exact .top hpass directory_top
  | cons e up ih =>
    have hup : ∀ x ∈ up, Files.Ordinary x := (List.forall_mem_cons.1 hp).2
    rw [findManifest]
    obtain ⟨r, hd⟩ | hpass := decides_or_passes t (Files.Place.path (e :: up))
    · rw [hd.examine hp]
      exact .here hd
    · rw [hpass.examine hp]
      refine .up hpass (directory_ne hp) ?_
      rw [Files.directory_path hp]
      exact ih hup

/-! ## The search ends -/

theorem exists_climbs (t : Files.Tree) (h : Files.isAbsolute start = true) :
    ∃ r, Climbs t start r := by
  obtain ⟨r, hd⟩ | hpass := decides_or_passes t start
  · exact ⟨r, .here hd⟩
  by_cases hfixed : Files.directory start = start
  · exact ⟨_, .top hpass hfixed⟩
  -- whatever the path was, the directory it lies in is the path of a place
  obtain ⟨p, hp, hpath⟩ := Files.directory_absolute h
  refine ⟨findManifest t p, .up hpass hfixed ?_⟩
  rw [hpath]
  exact climbs_findManifest t hp

theorem climbs_iff_nearest (h : Files.isAbsolute start = true) :
    Climbs t start r ↔ Nearest t start r := by
  refine ⟨Climbs.nearest, fun hr => ?_⟩
  obtain ⟨r', hr'⟩ := exists_climbs t h
  rwa [hr.unique hr'.nearest]

/-- From any absolute path the search ends, with the answer of the nearest directory that decides,
or else without a manifest; and so does the search of the program, which begins at the clean path. -/
theorem manifest_nearest (t : Files.Tree) {start : String} (h : Files.isAbsolute start = true) :
    (∃ r, Climbs t start r) ∧ (∀ r, Climbs t start r ↔ Nearest t start r) ∧
    ∀ r, findManifest t (Files.cleanElements start).reverse = r ↔
      Nearest t (Files.clean start) r := by
  have hordinary : ∀ e ∈ (Files.cleanElements start).reverse, Files.Ordinary e :=
    Files.Tidy.ordinary (h ▸ Files.cleanElements_tidy start)
  have hsearch := climbs_findManifest t hordinary
  rw [← Files.clean_absolute h] at hsearch
  refine ⟨exists_climbs t h, fun r => climbs_iff_nearest h, fun r => ⟨?_, ?_⟩⟩
  · rintro rfl
    exact hsearch.nearest
  · exact fun hr => hsearch.nearest.unique hr

/-! An instance: the search begins where there is nothing and passes a directory that is called like
a manifest. -/

def manifestAbove : Files.Tree where
  entries := [(["p"], .directory), (["lorgn.yml", "p"], .file []), (["q", "p"], .directory),
    (["lorgn.yml", "q", "p"], .directory)]

theorem manifest_nearest_passing : Files.isAbsolute "/p/q/../q/r" = true ∧
    findManifest manifestAbove (Files.cleanElements "/p/q/../q/r").reverse = .ok "/p/lorgn.yml" ∧
    Nearest manifestAbove (Files.clean "/p/q/../q/r") (.ok "/p/lorgn.yml") := by
  have habsolute : Files.isAbsolute "/p/q/../q/r" = true := by
    rw [Files.isAbsolute_iff]
    decide
  have hfound : findManifest manifestAbove (Files.cleanElements "/p/q/../q/r").reverse
      = .ok "/p/lorgn.yml" :=
    Package.ok_of_toOption (by decide +kernel)
  exact ⟨habsolute, hfound, ((manifest_nearest manifestAbove habsolute).2.2 _).1 hfound⟩

end Arbor.Command
