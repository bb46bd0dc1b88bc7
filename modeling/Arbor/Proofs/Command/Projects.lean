import Arbor.Command.Install
import Arbor.Proofs.Package.Entries
import Arbor.Proofs.Package.Reloading

/-!
What an installation starts from and what it puts down.

The manifest of a project is found again as long as nothing but lockfiles changed. What a lockfile has
under a name after dependencies were put into it is the last of them with that written name
(`lockAll_find?`), and no line is printed exactly if it had all of them (`lockAll_eq_nil_iff`).
-/

set_option autoImplicit false

namespace Arbor.Command

open Files (Tree)
open Package

/-! ## Writing dependencies down -/

/-- The last dependency with the same written name. -/
def lastNamed (ds : List Resolved) (name : String) : Option Resolved :=
  (ds.filter fun d => packageName d.name = packageName name).getLast?

theorem mem_of_lastNamed {ds : List Resolved} {name : String} {d : Resolved}
    (h : lastNamed ds name = some d) : d ∈ ds ∧ packageName d.name = packageName name := by
  simpa using List.mem_filter.1 (List.mem_of_getLast? h)

theorem lastNamed_isSome {ds : List Resolved} {d : Resolved} {name : String} (hd : d ∈ ds)
    (hname : packageName d.name = packageName name) : ∃ d', lastNamed ds name = some d' := by
  have hmem : d ∈ ds.filter fun d => packageName d.name = packageName name :=
    List.mem_filter.2 ⟨hd, by simpa using hname⟩
  exact ⟨_, List.getLast?_eq_some_getLast (List.ne_nil_of_mem hmem)⟩

section

variable {ds : List Resolved} {l : Lockfile}

theorem lockAll_eq_updateAll (ds : List Resolved) (l : Lockfile) :
    (lockAll ds l).2 = l.updateAll (ds.map fun d => some (entryOf d)) := by
  induction ds generalizing l with
  | nil => rfl
  | cons d ds ih => exact ih (l.put (entryOf d))

theorem lockAll_root (ds : List Resolved) (l : Lockfile) : (lockAll ds l).2.root = l.root := by
  induction ds generalizing l with
  | nil => rfl
  | cons d ds ih => exact ih (l.put (entryOf d))

theorem lockAll_settled (hl : l.Settled) : (lockAll ds l).2.Settled := by
  induction ds generalizing l with
  | nil => exact hl
  | cons d ds ih => exact ih (hl.put (entryOf d))

theorem underName_entries (ds : List Resolved) (name : String) :
    Lockfile.underName name (ds.map fun d => some (entryOf d)) =
      (ds.filter fun d => packageName d.name = packageName name).map entryOf := by
  unfold Lockfile.underName
  rw [List.filterMap_map]
  change (ds.filterMap (some ∘ entryOf)).filter _ = _
  rw [List.filterMap_eq_map, List.filter_map]
  rfl

/-- The last dependency with that written name counts. -/
theorem lockAll_find? (ds : List Resolved) (l : Lockfile) (name : String) :
    (lockAll ds l).2.find? name =
      ((lastNamed ds name).map fun d => Lockfile.written name (entryOf d)).or (l.find? name) := by
  rw [lockAll_eq_updateAll, Lockfile.find?_updateAll, underName_entries, List.getLast?_map,
    Option.map_map]
  rfl

theorem lockAll_unchanged (h : (lockAll ds l).1 = []) : (lockAll ds l).2 = l := by
  induction ds generalizing l with
  | nil => rfl
  | cons d ds ih =>
    simp only [lockAll] at h ⊢
    split at h
    next hsame => rw [ih h, hsame]
    next => cases h

/-- No line is printed exactly if the lockfile has all of it. -/
theorem lockAll_eq_nil_iff :
    (lockAll ds l).1 = [] ↔ ∀ d ∈ ds, l.find? d.name = some (entryOf d).normalize := by
  induction ds with
  | nil => simp [lockAll]
  | cons d ds ih =>
    rw [List.forall_mem_cons]
    have hput : l.put (entryOf d) = l ↔ l.find? d.name = some (entryOf d).normalize := by
      constructor
      · intro hsame
        have hfound := l.find?_put (entryOf d) (entryOf d).name
        rw [hsame, if_pos rfl] at hfound
        exact hfound
      · exact fun hfind => Lockfile.put_of_find? (p := entryOf d) hfind
    rw [← hput, lockAll]
    dsimp only
    split
    next hsame => rw [hsame, ih, eq_self_iff_true, true_and]
    next hother => exact iff_of_false nofun fun h => hother h.1

theorem Report.append_right_inj {a b c : Report} : a ++ b = a ++ c ↔ b = c := by
  refine ⟨fun h => ?_, congrArg (a ++ ·)⟩
  obtain ⟨hout, herr⟩ := Report.mk.inj h
  cases b
  cases c
  exact Report.mk.injEq .. ▸ ⟨List.append_cancel_left hout, List.append_cancel_left herr⟩

/-- Nothing is written exactly if the lockfile has all of it. -/
theorem writeLock_unchanged_iff {t : Tree} {s : Setting} {m : Manifest} {p : Program} :
    writeLock t s m false l p = (.done (.print "Lockfile up to date"), t) ↔
      (lockAll p.dependencies l).1 = [] := by
  unfold writeLock
  generalize lockAll p.dependencies l = locked
  obtain ⟨lines, after⟩ := locked
  cases lines with
  | nil => exact iff_of_true rfl rfl
  | cons line lines =>
    refine iff_of_false (fun h => ?_) nofun
    -- There are two lines at least: that one, and that it was written or could not be.
    simp only [List.isEmpty_cons, Bool.not_false, Bool.or_true, if_true] at h
    split at h
    next =>
      have hlines : (line :: lines ++ [_]).length = 1 := congrArg (·.1.report.out.length) h
      simp at hlines
    next => cases h

theorem writeLock_congr {t : Tree} {s : Setting} {m : Manifest} {isNew : Bool} {p q : Program}
    (h : p.dependencies = q.dependencies) :
    writeLock t s m isNew l p = writeLock t s m isNew l q := by
  simp only [writeLock, h]

end

/-! ## The project around a directory -/

/-- The working directory is there. -/
def Setting.WorksIn (s : Setting) (t : Tree) : Prop :=
  ∃ w : Files.Place, (∀ e ∈ w, Files.Ordinary e) ∧ s.here = w.path ∧ t.at? w = some .directory

variable {t t' : Tree} {s : Setting} {m : Manifest}

theorem Setting.WorksIn.absolute (h : s.WorksIn t) : Files.isAbsolute s.here = true := by
  obtain ⟨w, -, hhere, -⟩ := h
  rw [hhere]
  exact Files.isAbsolute_path w

theorem examine_again (ht : t.Sound) (hk : Kept t t') {p : Files.Place}
    (hp : ∀ e ∈ p, Files.Ordinary e) (hdir : t.at? p = some .directory)
    (above : Except ProjectError String) :
    findManifest.examine t' p above = findManifest.examine t p above := by
  have hfile : ∀ e ∈ Manifest.fileName :: p, Files.Ordinary e :=
    List.forall_mem_cons.2 ⟨fileName_ordinary, hp⟩
  have hname : ¬ (Manifest.fileName :: p).head? = some Lockfile.fileName := by
    rw [List.head?_cons]
    decide
  unfold findManifest.examine
  dsimp only
  have hlook : t'.look .stat "/" (Files.Place.path (Manifest.fileName :: p)) = _ ∨ _ :=
    hk.look_in_directory ht hfile hdir hname
  obtain hsame | ⟨hmissing, hfound⟩ := hlook
  · rw [hsame]
  · rw [hmissing, hfound]
    rfl

theorem findManifest_again (ht : t.Sound) (hk : Kept t t') {p : Files.Place}
    (hp : ∀ e ∈ p, Files.Ordinary e) (hdir : t.at? p = some .directory) :
    findManifest t' p = findManifest t p := by
  induction p with
  | nil => exact examine_again ht hk hp hdir _
  | cons e up ih =>
    have habove : t.at? up = some .directory := ht.above hdir (List.suffix_cons e up)
    unfold findManifest
    rw [ih (List.forall_mem_cons.1 hp).2 habove]
    exact examine_again ht hk hp hdir _

theorem examine_cases {p : Files.Place} {path : String} {above : Except ProjectError String}
    (h : findManifest.examine t p above = .ok path) :
    path = Files.Place.path (Manifest.fileName :: p) ∨ above = .ok path := by
  unfold findManifest.examine at h
  simp only at h
  split at h
  · cases h
    exact .inl rfl
  · exact .inr h
  · split at h
    · exact .inr h
    · cases h

theorem findManifest_path {p : Files.Place} {path : String} (hp : ∀ e ∈ p, Files.Ordinary e)
    (h : findManifest t p = .ok path) : ∃ q : Files.Place,
      (∀ e ∈ Manifest.fileName :: q, Files.Ordinary e) ∧
      path = Files.Place.path (Manifest.fileName :: q) := by
  induction p with
  | nil =>
    obtain hpath | habove := examine_cases h
    · exact ⟨[], List.forall_mem_cons.2 ⟨fileName_ordinary, hp⟩, hpath⟩
    · cases habove
  | cons e up ih =>
    obtain hpath | habove := examine_cases h
    · exact ⟨e :: up, List.forall_mem_cons.2 ⟨fileName_ordinary, hp⟩, hpath⟩
    · exact ih (List.forall_mem_cons.1 hp).2 habove

theorem manifestFrom_eq_ok_iff {w : Files.Place} (hw : ∀ e ∈ w, Files.Ordinary e)
    (hhere : s.here = w.path) (hdir : t.at? w = some .directory) :
    manifestFrom t s "" = .ok m ↔
      ∃ path, findManifest t w = .ok path ∧ Manifest.load t s.here path = .ok m := by
  have hfull : Files.absolute s.here (if "".isEmpty then s.here else "") = w.path := by
    rw [if_pos (by decide), hhere, Files.absolute_path hw]
  have helements : (Files.cleanElements w.path).reverse = w := by
    rw [Files.cleanElements_path hw, List.reverse_reverse]
  have hfind : manifestFrom t s "" = findManifest t w >>= fun path =>
      (Manifest.load t s.here path).mapError .manifest := by
    unfold manifestFrom
    simp only [hfull, helements]
    split
    next hlook => cases hdir.symm.trans (Tree.at?_of_look hw hlook)
    next => rfl
  rw [hfind]
  cases hpath : findManifest t w with
  | error e => simp [bind, Except.bind]
  | ok path =>
    simp only [bind, Except.bind, Except.ok.injEq, exists_eq_left']
    cases Manifest.load t s.here path <;> simp [Except.mapError]

theorem manifestFrom_again (ht : t.Sound) (hk : Kept t t') (hs : s.WorksIn t)
    (h : manifestFrom t s "" = .ok m) : manifestFrom t' s "" = .ok m := by
  obtain ⟨w, hw, hhere, hdir⟩ := hs
  obtain ⟨path, hpath, hload⟩ := (manifestFrom_eq_ok_iff hw hhere hdir).1 h
  obtain ⟨q, hq, hplace⟩ := findManifest_path hw hpath
  have hfull : Files.absolute s.here path = Files.Place.path (Manifest.fileName :: q) := by
    rw [hplace, Files.absolute_path hq]
  refine (manifestFrom_eq_ok_iff hw hhere (hk.directory w hdir)).2 ⟨path, ?_, ?_⟩
  · rwa [findManifest_again ht hk hw hdir]
  · exact Manifest.load_again hk hq hfull hload

theorem manifestFrom_stands (hs : s.WorksIn t) (h : manifestFrom t s "" = .ok m) :
    m.Stands t := by
  have habsolute := hs.absolute
  obtain ⟨w, hw, hhere, hdir⟩ := hs
  obtain ⟨path, -, hload⟩ := (manifestFrom_eq_ok_iff hw hhere hdir).1 h
  exact Manifest.load_stands habsolute hload

theorem lockfile_load_later {here path : String} {l : Lockfile} (hlater : t.Later (fun _ => False) t')
    (h : Lockfile.load t here path = .ok l) : Lockfile.load t' here path = .ok l := by
  unfold Lockfile.load at h ⊢
  split at h
  next => cases h
  next hempty =>
    rw [if_neg hempty]
    simp only at h ⊢
    cases hlook : t.look .open here (Files.absolute here path) with
    | error e =>
      rw [hlook] at h
      cases h
    | ok entry =>
      rw [hlook] at h
      rwa [hlater.look hlook fun _ _ => not_false]

theorem startingLock_cases {l : Lockfile} {isNew : Bool}
    (h : startingLock t s m = .ok (l, isNew)) :
    (isNew = true ∧
      l = { Lockfile.start m.name tool s.now with path := lockfilePath m, tool := tool }) ∨
    (isNew = false ∧ ∃ before, Lockfile.load t s.here (lockfilePath m) = .ok before ∧
      before.root = m.name ∧ l = { before with path := lockfilePath m, tool := tool }) := by
  unfold startingLock at h
  simp only at h
  split at h
  next before hload =>
    split at h
    next hroot =>
      cases h
      exact .inr ⟨rfl, before, hload, hroot, rfl⟩
    next => cases h
  next =>
    split at h
    next =>
      cases h
      exact .inl ⟨rfl, rfl⟩
    next => cases h

end Arbor.Command
