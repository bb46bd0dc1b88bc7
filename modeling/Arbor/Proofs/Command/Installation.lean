import Arbor.Proofs.Command.Projects
import Arbor.Proofs.Package.Replay

/-!
Installing again.

* An `Installation` is what installing dependencies goes through before it writes the lockfile.
* Afterwards the lockfile has one entry for all dependencies of one written name, which is that of the
  last one recorded (`Installation.Lists`).
* A dependency that is taken at the same commit with this lockfile is followed as it was. If all of
  them are, the program loads as it did, and then a second installation has nothing to write exactly
  if the lockfile could hold everything that was recorded (`Installation.Restores`).
-/

set_option autoImplicit false

namespace Arbor.Command

open Files (Tree)
open Package

/-- What is gone through before the lockfile is written. -/
structure Installation (t : Tree) (s : Setting) where
  manifest : Manifest
  cache : String
  /-- The lockfile it starts from. -/
  lock : Lockfile
  /-- Whether there was none. -/
  isNew : Bool
  program : Program
  /-- The files before the lockfile is written, with what was cloned. -/
  files : Tree
  found : manifestFrom t s "" = .ok manifest
  home : cacheDirectory s = .ok cache
  start : startingLock t s manifest = .ok (lock, isNew)
  loaded : Program.load ⟨s.here, some cache, some lock, false⟩ t (some manifest) s.remote s.fuel =
    (.ok program, files)

variable {t : Tree} {s : Setting}

namespace Installation

variable (i : Installation t s)

/-- What dependencies are looked for with. -/
def circumstances : Circumstances := ⟨s.here, some i.cache, some i.lock, false⟩

/-- What dependencies are looked for with later. -/
def again (l : Lockfile) : Circumstances := ⟨s.here, some i.cache, some l, false⟩

/-- The dependencies that were resolved, with the packages they were found in. -/
def steps : List LoadStep := Program.steps i.circumstances t i.manifest s.remote s.fuel

/-- The lines that are printed, and the lockfile afterwards. -/
def locked : List String × Lockfile := lockAll i.program.dependencies i.lock

def written : Lockfile :=
  i.locked.2.stamped s.now (Files.absolute s.here (lockfilePath i.manifest))

/-- All dependencies of that written name were found at the same source and commit. -/
def Unambiguous (x : LoadStep) : Prop :=
  ∀ y ∈ i.steps, packageName y.dependency.1 = packageName x.dependency.1 →
    Text.trim y.found.1.source = Text.trim x.found.1.source ∧ y.found.1.commit = x.found.1.commit

/-- A directory, a repository at a commit that is given, or one at the commit that was recorded last
under its written name. -/
def Fixed (x : LoadStep) : Prop :=
  x.dependency.2.isGit = false ∨ x.dependency.2.rev = x.found.1.commit ∨
    x.dependency.2.rev = "" ∧ ∃ d, lastNamed i.program.dependencies x.dependency.1 = some d ∧
      d.commit = x.found.1.commit

/-- No two dependencies were recorded that one entry of a lockfile cannot stand for. -/
def Storable : Prop :=
  ∀ d ∈ i.program.dependencies, ∀ d' ∈ i.program.dependencies,
    packageName d.name = packageName d'.name →
      Text.trim d.source = Text.trim d'.source ∧ d.commit = d'.commit

/-- That lockfile is beside the manifest, with what was installed. -/
structure Lists (files : Tree) (l : Lockfile) : Prop where
  read : Lockfile.load files s.here (lockfilePath i.manifest) = .ok l
  /-- An entry is that of the last dependency recorded, or what it was before. -/
  entry : ∀ name, l.find? name = ((lastNamed i.program.dependencies name).map fun d =>
    ⟨packageName name, Text.trim d.source, d.commit⟩).or (i.lock.find? name)
  exact : ∀ x ∈ i.steps, i.Unambiguous x → l.find? x.dependency.1 =
    some ⟨packageName x.dependency.1, Text.trim x.found.1.source, x.found.1.commit⟩
  /-- Only paths can have white space at their ends. -/
  trimmed : ∀ x ∈ i.steps, x.dependency.2.isGit = true →
    Text.trim x.found.1.source = x.found.1.source

/-- The files and the lockfile give back what was installed, with repositories from there. -/
structure Restores (files : Tree) (l : Lockfile) (r : Remote) : Prop where
  fixed : ∀ x ∈ i.steps, i.Fixed x → x.Repeats r (i.again l) files
  followed : ∀ x ∈ i.steps, x.Repeats r (i.again l) files → Loading.Again r (i.again l) files x
  program : (∀ x ∈ i.steps, x.Repeats r (i.again l) files) →
    loadProgram files { s with remote := r } "" = (.ok i.program, files)
  install : (∀ x ∈ i.steps, x.Repeats r (i.again l) files) → ∀ now,
    install files { s with now := now, remote := r } =
      (.done (preamble i.manifest i.cache ++ .print "Lockfile up to date"), files) ↔ i.Storable

theorem install_eq : install t s =
    ({ (writeLock i.files s i.manifest i.isNew i.lock i.program).1 with
        report := preamble i.manifest i.cache ++
          (writeLock i.files s i.manifest i.isNew i.lock i.program).1.report },
      (writeLock i.files s i.manifest i.isNew i.lock i.program).2) := by
  simp only [Command.install, i.found, i.home, installFor, i.start, i.loaded]

theorem install_code : (Command.install t s).1.code =
    (writeLock i.files s i.manifest i.isNew i.lock i.program).1.code := by
  rw [i.install_eq]

/-- An installation that succeeds goes through all that. -/
theorem nonempty_of_done (h : (Command.install t s).1.code = 0) : Nonempty (Installation t s) := by
  unfold Command.install at h
  split at h
  next => cases h
  next m hm =>
    split at h
    next => cases h
    next cache hcache =>
      unfold installFor at h
      simp only at h
      split at h
      next => cases h
      next l isNew hl =>
        split at h
        next => cases h
        next p files hp => exact ⟨⟨m, cache, l, isNew, p, files, hm, hcache, hl, hp⟩⟩

section

variable (hs : s.WorksIn t)
include hs

theorem stands : i.manifest.Stands t := manifestFrom_stands hs i.found

theorem lockfilePath_ne_empty : lockfilePath i.manifest ≠ "" :=
  Files.join_ne_empty (Manifest.directory_ne_empty (i.stands hs).path_ne_empty) _

theorem save_locked : i.locked.2.save i.files s.here s.now (lockfilePath i.manifest) =
    ((i.files.write s.here i.written.path (Text.bytes i.written.text)).mapError .unwritten,
      i.written) := by
  have hpath : (lockfilePath i.manifest).isEmpty = false := by
    simpa using i.lockfilePath_ne_empty hs
  simp only [Lockfile.save, hpath, Bool.false_eq_true, if_false]
  rfl

/-- Either nothing had to be written, or the lockfile was. -/
theorem ends (h : (Command.install t s).1.code = 0) :
    (i.isNew = false ∧ i.locked.1 = [] ∧ (Command.install t s).2 = i.files) ∨
      i.files.write s.here i.written.path (Text.bytes i.written.text) =
        .ok (Command.install t s).2 := by
  rw [i.install_eq] at h ⊢
  have hlocked : lockAll i.program.dependencies i.lock = i.locked := rfl
  simp only [writeLock, hlocked, i.save_locked hs] at h ⊢
  split at h
  next hchanged =>
    right
    rw [if_pos hchanged]
    cases hwrite : i.files.write s.here i.written.path (Text.bytes i.written.text) with
    | error e =>
      rw [hwrite] at h
      cases h
    | ok files => rfl
  next hsame =>
    left
    rw [if_neg hsame]
    simp only [Bool.or_eq_true, not_or, Bool.not_eq_true, Bool.not_eq_false',
      List.isEmpty_iff] at hsame
    exact ⟨hsame.1, hsame.2, rfl⟩

theorem name_settled : packageName i.manifest.name = i.manifest.name := by
  obtain ⟨written, hname⟩ := (i.stands hs).proper.name
  rw [hname, packageName_packageName]

theorem lock_root : i.lock.root = i.manifest.name := by
  obtain ⟨-, hlock⟩ | ⟨-, l, -, hroot, hlock⟩ := startingLock_cases i.start
  · rw [hlock]
    exact i.name_settled hs
  · rw [hlock]
    exact hroot

end

theorem locked_settled : i.locked.2.Settled := by
  refine lockAll_settled ?_
  obtain ⟨-, hlock⟩ | ⟨-, l, hload, -, hlock⟩ := startingLock_cases i.start
  · rw [hlock]
    exact Lockfile.start_settled i.manifest.name tool s.now
  · have hbefore := Lockfile.load_settled hload
    rw [hlock]
    exact hbefore

/-! ## What was resolved -/

section

variable (ht : t.Sound) (hs : s.WorksIn t) (hr : s.remote.Orderly)
include ht hs hr

theorem files_later : i.files.Sound ∧ (∀ but, Tree.Later but t i.files) ∧
    t.entries.length ≤ i.files.entries.length := by
  obtain ⟨hsound, hlater, hlength, -⟩ :=
    Program.load_steps hr ht hs.absolute (i.stands hs).path_ne_empty i.loaded
  exact ⟨hsound, hlater, hlength⟩

theorem recorded : (∀ d ∈ i.program.dependencies, ∃ x ∈ i.steps, x.found.1 = d) ∧
    ∀ x ∈ i.steps, x.dependency.1 ∈ i.program.dependencies.map (·.name) := by
  obtain ⟨-, -, -, hfrom, hnames, hholds⟩ :=
    Program.load_steps hr ht hs.absolute (i.stands hs).path_ne_empty i.loaded
  exact ⟨hfrom, fun x hx => (hholds x hx).name ▸ hnames x hx⟩

theorem step_holds {x : LoadStep} (hx : x ∈ i.steps) : x.Holds i.circumstances i.files := by
  obtain ⟨-, -, -, -, -, hholds⟩ :=
    Program.load_steps hr ht hs.absolute (i.stands hs).path_ne_empty i.loaded
  exact hholds x hx

theorem trim_commit {d : Resolved} (hd : d ∈ i.program.dependencies) :
    Text.trim d.commit = d.commit := by
  obtain ⟨x, hx, rfl⟩ := (i.recorded ht hs hr).1 d hd
  exact (i.step_holds ht hs hr hx).trim_commit

/-- The last dependency recorded under the written name of another one is one of those that were
resolved. -/
theorem lastNamed_step {x : LoadStep} (hx : x ∈ i.steps) : ∃ y ∈ i.steps,
    packageName y.dependency.1 = packageName x.dependency.1 ∧
      lastNamed i.program.dependencies x.dependency.1 = some y.found.1 := by
  obtain ⟨hfrom, hnames⟩ := i.recorded ht hs hr
  obtain ⟨d, hd, hname⟩ := List.mem_map.1 (hnames x hx)
  obtain ⟨last, hlast⟩ := lastNamed_isSome hd (congrArg packageName hname)
  obtain ⟨hmem, hsame⟩ := mem_of_lastNamed hlast
  obtain ⟨y, hy, rfl⟩ := hfrom last hmem
  rw [(i.step_holds ht hs hr hy).name] at hsame
  exact ⟨y, hy, hsame, hlast⟩

end

/-! ## The lockfile afterwards -/

/-- What an installation leaves behind. -/
structure Leaves (files : Tree) (l : Lockfile) : Prop where
  kept : Kept i.files files
  sound : files.Sound
  length : i.files.entries.length ≤ files.entries.length
  read : Lockfile.load files s.here (lockfilePath i.manifest) = .ok l
  root : l.root = i.manifest.name
  find? : ∀ name, l.find? name = i.locked.2.find? name

section

variable (ht : t.Sound) (hs : s.WorksIn t) (hr : s.remote.Orderly)
include ht hs hr

theorem leaves_unchanged (hnew : i.isNew = false) (hlines : i.locked.1 = []) :
    ∃ l, i.Leaves i.files l := by
  obtain ⟨hsound, hlater, -⟩ := i.files_later ht hs hr
  obtain ⟨htrue, -⟩ | ⟨-, l, hload, hroot, hlock⟩ := startingLock_cases i.start
  · cases hnew.symm.trans htrue
  · refine ⟨l, .refl _ _, hsound, le_rfl, lockfile_load_later (hlater _) hload, hroot, fun name => ?_⟩
    have hsame : i.locked.2 = i.lock := lockAll_unchanged hlines
    rw [hsame, hlock]
    rfl

theorem leaves_written (hyaml : i.written.ReadsBack) {files : Tree}
    (h : i.files.write s.here i.written.path (Text.bytes i.written.text) = .ok files) :
    ∃ l, i.Leaves files l := by
  obtain ⟨hsound, -, -⟩ := i.files_later ht hs hr
  have hdirectory := Manifest.directory_ne_empty (i.stands hs).path_ne_empty
  have hlockName : Files.Ordinary Lockfile.fileName := by decide
  obtain ⟨q, hq, hpath⟩ := Files.absolute_join hs.absolute hdirectory hlockName
  have hwritten : i.written.path = Files.Place.path (Lockfile.fileName :: q) := hpath
  rw [hwritten] at h
  obtain ⟨rfl, hfile, hdir, hlook⟩ := Tree.look_written hq h
  have hread := Lockfile.load_eq_parse (i.lockfilePath_ne_empty hs) (hpath ▸ hlook .open)
  refine ⟨_, Tree.later_set hfile _, hsound.set_file hdir hfile _, Tree.length_set ..,
    hread.trans hyaml, ?_, ?_⟩
  · change packageName (packageName i.locked.2.root) = _
    rw [packageName_packageName, locked, lockAll_root, i.lock_root hs, i.name_settled hs]
  · intro name
    have hwritten := Lockfile.stamped_settled i.locked.2 s.now
      (Files.absolute s.here (lockfilePath i.manifest))
    exact (hwritten.find?_read _ name).trans (i.locked_settled.find?_stamped _ _ name)

theorem leaves (hyaml : i.written.ReadsBack) (h : (Command.install t s).1.code = 0) :
    ∃ l, i.Leaves (Command.install t s).2 l := by
  obtain ⟨hnew, hlines, hfiles⟩ | hwrite := i.ends hs h
  · rw [hfiles]
    exact i.leaves_unchanged ht hs hr hnew hlines
  · exact i.leaves_written ht hs hr hyaml hwrite

end

/-! ## Loading and installing again -/

section

variable {i} {files : Tree} {l : Lockfile} (ht : t.Sound) (hs : s.WorksIn t) (hr : s.remote.Orderly)
  (hl : i.Leaves files l)
include ht hs hr hl

theorem Leaves.kept_all : Kept t files :=
  ((i.files_later ht hs hr).2.1 _).trans hl.kept

theorem Leaves.entry (name : String) : l.find? name =
    ((lastNamed i.program.dependencies name).map fun d =>
      ⟨packageName name, Text.trim d.source, d.commit⟩).or (i.lock.find? name) := by
  rw [hl.find?]
  refine (lockAll_find? i.program.dependencies i.lock name).trans ?_
  congr 1
  refine Option.map_congr fun d hd => ?_
  rw [Lockfile.written, entryOf, i.trim_commit ht hs hr (mem_of_lastNamed hd).1]

theorem Leaves.exact {x : LoadStep} (hx : x ∈ i.steps) (hone : i.Unambiguous x) :
    l.find? x.dependency.1 =
      some ⟨packageName x.dependency.1, Text.trim x.found.1.source, x.found.1.commit⟩ := by
  obtain ⟨y, hy, hname, hlast⟩ := i.lastNamed_step ht hs hr hx
  obtain ⟨hsource, hcommit⟩ := hone y hy hname
  rw [hl.entry ht hs hr, hlast, Option.map_some, hsource, hcommit]
  rfl

theorem Leaves.pinned {name : String} {d : Resolved}
    (hd : lastNamed i.program.dependencies name = some d) : (i.again l).pinned name = d.commit := by
  change ((l.find? name).map (·.commit)).getD "" = _
  rw [hl.entry ht hs hr, hd]
  rfl

theorem Leaves.fixed {x : LoadStep} (hx : x ∈ i.steps) (hfixed : i.Fixed x) (r : Remote) :
    x.Repeats r (i.again l) files := by
  intro hgit
  left
  obtain ⟨cache, -, hkept⟩ := (i.step_holds ht hs hr hx).kept hgit
  have hne : x.found.1.commit ≠ "" := by
    intro hempty
    have hhash := hkept.hash
    rw [hempty] at hhash
    cases hhash
  obtain hpath | hgiven | ⟨hnone, d, hlast, hcommit⟩ := hfixed
  · cases hgit.symm.trans hpath
  · have hrev : x.dependency.2.rev ≠ "" := hgiven ▸ hne
    rw [(Checkout.revisionAt_precedence _ _).1 hrev, hgiven]
  · rw [hl.pinned ht hs hr hlast, hcommit, (Checkout.revisionAt_precedence _ _).2.1 hnone hne]

theorem Leaves.follows {r : Remote} (hr' : r.Orderly) {k : Lockfile}
    (hk : ∀ name, (i.again k).pinned name = (i.again l).pinned name) {x : LoadStep} (hx : x ∈ i.steps)
    (hrepeats : x.Repeats r (i.again l) files) : Loading.Again r (i.again k) files x := by
  have hholds := (i.step_holds ht hs hr hx).later hs.absolute hl.kept
  have hrepeats' : x.Repeats r (i.again k) files := by
    unfold LoadStep.Repeats
    rw [hk]
    exact hrepeats
  have hhere : (i.again k).here = i.circumstances.here := rfl
  exact fun p hp => hholds.follow_again hl.sound hr' hhere rfl rfl hrepeats' hp

theorem Leaves.load {r : Remote} (hr' : r.Orderly) {k : Lockfile}
    (hk : ∀ name, (i.again k).pinned name = (i.again l).pinned name)
    (hall : ∀ x ∈ i.steps, x.Repeats r (i.again l) files) :
    Program.load (i.again k) files (some i.manifest) r s.fuel = (.ok i.program, files) := by
  have hlength := Nat.le_trans (i.files_later ht hs hr).2.2 hl.length
  exact Program.load_again hr ht hs.absolute (i.stands hs).path_ne_empty i.loaded rfl hl.kept
    (Nat.add_le_add_right hlength _) fun x hx => hl.follows ht hs hr hr' hk hx (hall x hx)

theorem Leaves.loadProgram_eq {r : Remote} (hr' : r.Orderly)
    (hall : ∀ x ∈ i.steps, x.Repeats r (i.again l) files) :
    loadProgram files { s with remote := r } "" = (.ok i.program, files) := by
  have hmanifest : manifestFrom files { s with remote := r } "" = .ok i.manifest :=
    manifestFrom_again ht (hl.kept_all ht hs hr) hs i.found
  have hhome : cacheDirectory { s with remote := r } = .ok i.cache := i.home
  have hlock : lockfileFor files { s with remote := r } i.manifest = .ok (some l) := by
    simp only [lockfileFor, hl.read, hl.root, if_true]
  have hprepare : prepare files { s with remote := r } "" = .ok (i.manifest, i.again l) := by
    simp only [prepare, hmanifest, hlock, hhome, bind, Except.bind, Option.isSome_some,
      Bool.or_true, if_true, Except.map, pure, Except.pure]
    rfl
  delta loadProgram
  rw [hprepare]
  simp only [hl.load ht hs hr hr' (fun _ => rfl) hall, Except.mapError]

/-- The lockfile has all that was recorded, if it can hold it. -/
theorem Leaves.storable_iff : (∀ d ∈ i.program.dependencies,
    l.find? d.name = some (entryOf d).normalize) ↔ i.Storable := by
  have hentry : ∀ d ∈ i.program.dependencies,
      (entryOf d).normalize = ⟨packageName d.name, Text.trim d.source, d.commit⟩ := by
    intro d hd
    rw [entryOf, Locked.normalize, i.trim_commit ht hs hr hd]
  constructor
  · intro h d hd d' hd' hname
    have hfind : l.find? d.name = l.find? d'.name := by rw [Lockfile.find?, hname, Lockfile.find?]
    rw [h d hd, h d' hd', hentry d hd, hentry d' hd'] at hfind
    have hsame := Option.some.inj hfind
    exact ⟨congrArg Locked.source hsame, congrArg Locked.commit hsame⟩
  · intro h d hd
    obtain ⟨last, hlast⟩ := lastNamed_isSome hd rfl
    obtain ⟨hmem, hname⟩ := mem_of_lastNamed hlast
    obtain ⟨hsource, hcommit⟩ := h last hmem d hd hname
    rw [hl.entry ht hs hr, hlast, hentry d hd, Option.map_some, hsource, hcommit]
    rfl

theorem Leaves.install_iff {r : Remote} (hr' : r.Orderly)
    (hall : ∀ x ∈ i.steps, x.Repeats r (i.again l) files) (now : String) :
    Command.install files { s with now := now, remote := r } =
      (.done (preamble i.manifest i.cache ++ .print "Lockfile up to date"), files) ↔ i.Storable := by
  let later : Setting := { s with now := now, remote := r }
  let ready : Lockfile := { l with path := lockfilePath i.manifest, tool := tool }
  have hmanifest : manifestFrom files later "" = .ok i.manifest :=
    manifestFrom_again ht (hl.kept_all ht hs hr) hs i.found
  have hhome : cacheDirectory later = .ok i.cache := i.home
  have hstart : startingLock files later i.manifest = .ok (ready, false) := by
    simp only [startingLock, later, ready, hl.read, hl.root, if_true]
  have hload : Program.load (i.again ready) files (some i.manifest) r s.fuel =
      (.ok i.program, files) := hl.load ht hs hr hr' (fun _ => rfl) hall
  let j : Installation files later :=
    ⟨i.manifest, i.cache, ready, false, i.program, files, hmanifest, hhome, hstart, hload⟩
  have hstorable := hl.storable_iff ht hs hr
  have hlines : (lockAll i.program.dependencies ready).1 = [] ↔ i.Storable :=
    lockAll_eq_nil_iff.trans hstorable
  rw [← hlines, ← writeLock_unchanged_iff (t := files) (s := later) (m := i.manifest)]
  refine (iff_of_eq (congrArg (· = _) j.install_eq)).trans ?_
  generalize writeLock files later i.manifest false ready i.program = done
  obtain ⟨⟨code, report⟩, files'⟩ := done
  simp only [Outcome.done, Prod.mk.injEq, Outcome.mk.injEq, j, Report.append_right_inj]

end

end Installation

/-- After an installation that succeeded, the lockfile tells what was installed, and gives it back. -/
theorem install_reproducible (ht : t.Sound) (hs : s.WorksIn t) (hr : s.remote.Orderly)
    (hdone : (install t s).1.code = 0) :
    Nonempty (Installation t s) ∧ ∀ i : Installation t s, i.written.ReadsBack →
      ∃ l, i.Lists (install t s).2 l ∧
        ∀ r : Remote, r.Orderly → i.Restores (install t s).2 l r := by
  refine ⟨Installation.nonempty_of_done hdone, fun i hyaml => ?_⟩
  obtain ⟨l, hl⟩ := i.leaves ht hs hr hyaml hdone
  refine ⟨l, ⟨hl.read, hl.entry ht hs hr, fun x hx => hl.exact ht hs hr hx, fun x hx hgit => ?_⟩,
    fun r hr' => ⟨fun x hx hfixed => hl.fixed ht hs hr hx hfixed r, fun x hx => ?_,
      hl.loadProgram_eq ht hs hr hr', hl.install_iff ht hs hr hr'⟩⟩
  · obtain ⟨cache, -, hkept⟩ := (i.step_holds ht hs hr hx).kept hgit
    have hsource : x.found.1.source = _ := congrArg Checkout.source hkept.eq
    rw [hsource]
    exact trim_sourceOf hkept.hash _
  · exact hl.follows ht hs hr hr' (fun _ => rfl) hx

/-! ## Installing from a repository -/

def firstCommit : String := "1111111111111111111111111111111111111111"

def secondCommit : String := "2222222222222222222222222222222222222222"

def firstHash : Hash := ⟨firstCommit, by decide, by decide⟩

/-- Cloning makes the directory, and every revision is the first commit, which has a manifest. -/
def sampleRemote : Remote where
  random := Nat.toUInt32
  clone here _ directory t :=
    match t.locate here directory with
    | .error reason => (.error reason.text, t)
    | .ok p =>
      (.ok ⟨fun _ => .ok firstHash, .ok fun _ t =>
        (.ok (), t.set (Manifest.fileName :: p) (.file (Text.bytes "name: lib")))⟩,
        t.set p .directory)

theorem sampleRemote_orderly : sampleRemote.Orderly where
  clone here url directory t p ht hlocate hnone := by
    simp only [sampleRemote, hlocate]
    exact (ht.within_new hlocate hnone).1
  checkOut here url directory t p ht hlocate hnone repository checkOut hash hclone hworktree := by
    obtain ⟨hw, hdir⟩ := ht.within_new hlocate hnone
    simp only [sampleRemote, hlocate] at hclone ⊢
    cases hclone
    cases hworktree
    refine hw.set_file hdir (fun hfile => ?_) _
    have hbelow := ht.below_none hnone (List.suffix_cons Manifest.fileName p)
    have hne : p ≠ [] := by
      rintro rfl
      cases hnone
    rw [Tree.at?_set t hne, if_neg (List.cons_ne_self _ _), hbelow] at hfile
    cases hfile

def sampleSetting (remote : Remote) : Setting where
  here := "/p"
  userHome := ""
  toolHome := "/home"
  input := []
  now := "2001-02-03T04:05:06Z"
  fuel := 0
  remote := remote

/-- A project that depends on a repository, and nothing else. -/
def freshFiles (lib : String) : Tree where
  entries :=
    [(["p"], .directory),
     (["lorgn.yml", "p"], .file (Text.bytes
       ("\x7bname: app, dependencies: \x7blib: \x7b" ++ lib ++ "\x7d\x7d\x7d")))]

def sampleRoot (dependencies : Table Dependency) : Manifest where
  path := "/p/lorgn.yml"
  name := "app"
  version := ""
  authors := []
  entry := none
  modules := []
  dependencies := dependencies

def sampleLock (generated : String) (packages : List (Option Locked)) : Lockfile where
  path := "/p/lorgn.lock"
  root := "app"
  generated := generated
  tool := tool
  packages := packages

def resolvedLib (commit : String) : Resolved :=
  ⟨"lib", "/home/git/lib/" ++ commit, "git+u@" ++ commit, commit⟩

theorem sampleSetting_worksIn {files : Tree} {remote : Remote}
    (h : files.at? ["p"] = some .directory) : (sampleSetting remote).WorksIn files :=
  ⟨["p"], by decide, (by decide : "/p" = Files.Place.path ["p"]), h⟩

/-- What can be seen of an installation. -/
structure Seen where
  modules : List String
  recorded : List Resolved
  followed : List ((String × Dependency) × Resolved)
  code : Nat
  deriving DecidableEq

/-- What is seen of an installation, the dependencies followed last first. -/
def seen (files : Tree) (s : Setting) (root : Manifest) (lock : Lockfile) (isNew : Bool) :
    Option Seen :=
  match Loading.watch ((Loading.walk s.remote ⟨s.here, some "/home", some lock, false⟩).watched.go
      (files.entries.length + 2 + s.fuel) [] root) [] (.start files) with
  | (.ok ((), log), p) =>
    some ⟨p.modules.map (·.name), p.dependencies, log.map fun x => (x.dependency, x.found.1),
      (writeLock p.files s root isNew lock ⟨root, [], p.dependencies⟩).1.code⟩
  | (.error _, _) => none

/-- What can be computed of an installation. -/
structure Computed (files : Tree) (s : Setting) (root : Manifest) (lock : Lockfile) (isNew : Bool)
    (expected : Seen) (written : Lockfile) : Prop where
  home : (cacheDirectory s).toOption = some "/home"
  found : (manifestFrom files s "").toOption = some root
  started : (startingLock files s root).toOption = some (lock, isNew)
  loaded : seen files s root lock isNew = some expected
  left : (lockAll expected.recorded lock).2.stamped s.now
    (Files.absolute s.here (lockfilePath root)) = written
  reads : (Lockfile.parse (Text.bytes written.text) written.path).toOption =
    some ({ written with generated := Text.trim written.generated } : Lockfile).normalize

/-- The installation there is, read off the parts that can be computed. -/
theorem Computed.installation {files : Tree} {s : Setting} {root : Manifest} {lock written : Lockfile}
    {isNew : Bool} {expected : Seen} (h : Computed files s root lock isNew expected written) :
    (install files s).1.code = expected.code ∧ ∃ i : Installation files s,
      i.manifest = root ∧ i.lock = lock ∧ i.written.ReadsBack ∧
      i.program.dependencies = expected.recorded ∧
      i.steps.map (fun x => (x.dependency, x.found.1)) = expected.followed := by
  have hloaded := h.loaded
  unfold seen at hloaded
  split at hloaded
  next log p hwatch =>
    obtain ⟨hload, hsteps⟩ := Program.load_of_watch hwatch
    cases hloaded
    let i : Installation files s :=
      ⟨root, "/home", lock, isNew, _, p.files, ok_of_toOption h.found, ok_of_toOption h.home,
        ok_of_toOption h.started, hload⟩
    have hwritten : i.written = written := h.left
    refine ⟨?_, i, rfl, rfl, hwritten ▸ ok_of_toOption h.reads, rfl, ?_⟩
    · rw [i.install_code]
      exact congrArg (·.1.code) (writeLock_congr rfl)
    · exact congrArg (List.map _) hsteps
  next => cases hloaded

def pathOfA (path : String) : Dependency := ⟨"", "", "", "", path⟩

def headOfLib : Dependency := ⟨"u", "", "", "", ""⟩

def branchOfLib : Dependency := ⟨"u", "", "", "main", ""⟩

def revisionOfLib (revision : String) : Dependency := ⟨"u", revision, "", "", ""⟩

/-- A project pinned to the second commit, and a package that asks for the first one. Both commits
are in the cache. -/
def clashingFiles : Tree where
  entries :=
    [(["p"], .directory),
     (["lorgn.yml", "p"], .file (Text.bytes
       "\x7bname: app, dependencies: \x7ba: ../a, lib: \x7bgit: u, branch: main\x7d\x7d\x7d")),
     (["lorgn.lock", "p"], .file (Text.bytes
       ("\x7broot: app, packages: [\x7bname: lib, commit: '" ++ secondCommit ++ "'\x7d]\x7d"))),
     (["a"], .directory),
     (["lorgn.yml", "a"], .file (Text.bytes
       ("\x7bname: a, dependencies: \x7blib: \x7bgit: u, rev: '" ++ firstCommit ++
         "'\x7d\x7d\x7d"))),
     (["home"], .directory),
     (["git", "home"], .directory),
     (["lib", "git", "home"], .directory),
     ([firstCommit, "lib", "git", "home"], .directory),
     (["lorgn.yml", firstCommit, "lib", "git", "home"], .file (Text.bytes "name: lib")),
     ([secondCommit, "lib", "git", "home"], .directory),
     (["lorgn.yml", secondCommit, "lib", "git", "home"], .file (Text.bytes "name: lib"))]

/-- A project whose dependency has a path that ends in white space. Paths are trimmed where
dependencies are read, unless they are tagged as null. -/
def spacedFiles : Tree where
  entries :=
    [(["p"], .directory),
     (["lorgn.yml", "p"], .file (Text.bytes
       "\x7bname: app, dependencies: !!null \x7ba: \x7bpath: '../a '\x7d\x7d\x7d")),
     (["a "], .directory),
     (["lorgn.yml", "a "], .file (Text.bytes "name: a"))]

set_option maxRecDepth 100000 in
theorem fresh_computed :
    Computed (freshFiles "git: u") (sampleSetting sampleRemote) (sampleRoot [("lib", headOfLib)])
      (sampleLock "2001-02-03T04:05:06Z" []) true
      ⟨[], [resolvedLib firstCommit], [(("lib", headOfLib), resolvedLib firstCommit)], 0⟩
      (sampleLock "2001-02-03T04:05:06Z"
        [some ⟨"lib", "git+u@" ++ firstCommit, firstCommit⟩]) ∧
    Computed (freshFiles "git: u, rev: v1") (sampleSetting sampleRemote)
      (sampleRoot [("lib", revisionOfLib "v1")]) (sampleLock "2001-02-03T04:05:06Z" []) true
      ⟨[], [resolvedLib firstCommit], [(("lib", revisionOfLib "v1"), resolvedLib firstCommit)], 0⟩
      (sampleLock "2001-02-03T04:05:06Z"
        [some ⟨"lib", "git+u@" ++ firstCommit, firstCommit⟩]) := by
  refine ⟨?_, ?_⟩ <;> constructor <;> decide +kernel

set_option maxRecDepth 100000 in
theorem clashing_computed :
    Computed clashingFiles (sampleSetting .unreachable)
      (sampleRoot [("a", pathOfA "../a"), ("lib", branchOfLib)])
      (sampleLock "" [some ⟨"lib", "", secondCommit⟩]) false
      ⟨[], [resolvedLib firstCommit, ⟨"a", "/a", "path:../a", ""⟩],
        [(("lib", branchOfLib), resolvedLib secondCommit),
         (("a", pathOfA "../a"), ⟨"a", "/a", "path:../a", ""⟩),
         (("lib", revisionOfLib firstCommit), resolvedLib firstCommit)], 0⟩
      (sampleLock "2001-02-03T04:05:06Z" [some ⟨"a", "path:../a", ""⟩,
        some ⟨"lib", "git+u@" ++ firstCommit, firstCommit⟩]) ∧
    Computed spacedFiles (sampleSetting .unreachable) (sampleRoot [("a", pathOfA "../a ")])
      (sampleLock "2001-02-03T04:05:06Z" []) true
      ⟨[], [⟨"a", "/a ", "path:../a ", ""⟩],
        [(("a", pathOfA "../a "), ⟨"a", "/a ", "path:../a ", ""⟩)], 0⟩
      (sampleLock "2001-02-03T04:05:06Z" [some ⟨"a", "path:../a", ""⟩]) := by
  refine ⟨?_, ?_⟩ <;> constructor <;> decide +kernel

theorem cloned_sound : (freshFiles "git: u").Sound := Tree.sound_of_entries (by decide)

theorem install_reproducible_cloned : (freshFiles "git: u").Sound ∧
    (sampleSetting sampleRemote).WorksIn (freshFiles "git: u") ∧ sampleRemote.Orderly ∧
    (install (freshFiles "git: u") (sampleSetting sampleRemote)).1.code = 0 ∧
    ∃ i : Installation (freshFiles "git: u") (sampleSetting sampleRemote), i.written.ReadsBack ∧
      i.program.dependencies = [resolvedLib firstCommit] ∧
      ∀ now, install (install (freshFiles "git: u") (sampleSetting sampleRemote)).2
          { sampleSetting .unreachable with now := now } =
        (.done (preamble i.manifest i.cache ++ .print "Lockfile up to date"),
          (install (freshFiles "git: u") (sampleSetting sampleRemote)).2) := by
  have hworks : (sampleSetting sampleRemote).WorksIn (freshFiles "git: u") :=
    sampleSetting_worksIn (by decide)
  obtain ⟨hdone, i, -, -, hreads, hrecorded, hfollowed⟩ := fresh_computed.1.installation
  refine ⟨cloned_sound, hworks, sampleRemote_orderly, hdone, i, hreads, hrecorded, fun now => ?_⟩
  obtain ⟨-, hinstalled⟩ :=
    install_reproducible cloned_sound hworks sampleRemote_orderly hdone
  obtain ⟨l, -, hrestores⟩ := hinstalled i hreads
  have hagain := hrestores .unreachable Remote.orderly_unreachable
  refine (hagain.install (fun x hx => hagain.fixed x hx ?_) now).2 ?_
  · -- The one dependency was recorded with the commit it was found at.
    have hx' := List.mem_map_of_mem (f := fun x => (x.dependency, x.found.1)) hx
    rw [hfollowed, List.mem_singleton, Prod.mk.injEq] at hx'
    obtain ⟨hdependency, hfound⟩ := hx'
    refine .inr (.inr ⟨?_, resolvedLib firstCommit, ?_, ?_⟩)
    · rw [hdependency]
      rfl
    · rw [hdependency, hrecorded]
      decide
    · rw [hfound]
  · intro d hd d' hd' _
    rw [hrecorded] at hd hd'
    rw [List.mem_singleton.1 hd, List.mem_singleton.1 hd']
    exact ⟨rfl, rfl⟩

/-! ## Installations that are not given back -/

/-- The files and the lockfile give back all that was installed as it was. -/
structure Installation.Reproducible (i : Installation t s) (files : Tree) (l : Lockfile) (r : Remote) :
    Prop where
  read : Lockfile.load files s.here (lockfilePath i.manifest) = .ok l
  followed : ∀ x ∈ i.steps, Loading.Again r (i.again l) files x
  program : loadProgram files { s with remote := r } "" = (.ok i.program, files)
  listed : ∀ x ∈ i.steps, l.find? x.dependency.1 =
    some ⟨packageName x.dependency.1, x.found.1.source, x.found.1.commit⟩
  install : ∀ now, install files { s with now := now, remote := r } =
    (.done (preamble i.manifest i.cache ++ .print "Lockfile up to date"), files)

/-- Two commits were taken, and no lockfile holds them both under one name. -/
theorem clashing_not_reproducible :
    (install clashingFiles (sampleSetting .unreachable)).1.code = 0 ∧
    ∃ i : Installation clashingFiles (sampleSetting .unreachable), i.written.ReadsBack ∧
      ∀ files l r, ¬ i.Reproducible files l r := by
  obtain ⟨hdone, i, -, -, hreads, -, hfollowed⟩ := clashing_computed.1.installation
  refine ⟨hdone, i, hreads, fun files l r h => ?_⟩
  have hfirst : (("lib", revisionOfLib firstCommit), resolvedLib firstCommit) ∈
      i.steps.map fun x => (x.dependency, x.found.1) := by
    rw [hfollowed]
    simp
  have hsecond : (("lib", branchOfLib), resolvedLib secondCommit) ∈
      i.steps.map fun x => (x.dependency, x.found.1) := by
    rw [hfollowed]
    simp
  obtain ⟨x, hx, hxfound⟩ := List.mem_map.1 hfirst
  obtain ⟨y, hy, hyfound⟩ := List.mem_map.1 hsecond
  obtain ⟨hxname, hxlib⟩ := Prod.mk.inj hxfound
  obtain ⟨hyname, hylib⟩ := Prod.mk.inj hyfound
  have hxlisted := h.listed x hx
  have hylisted := h.listed y hy
  rw [hxname, hxlib] at hxlisted
  rw [hyname, hylib] at hylisted
  have hsame := congrArg Locked.commit (Option.some.inj (hxlisted.symm.trans hylisted))
  revert hsame
  decide

/-- No lockfile that is read has a source with white space at an end. -/
theorem spaced_not_reproducible :
    (install spacedFiles (sampleSetting .unreachable)).1.code = 0 ∧
    ∃ i : Installation spacedFiles (sampleSetting .unreachable), i.written.ReadsBack ∧
      ∀ files l r, ¬ i.Reproducible files l r := by
  obtain ⟨hdone, i, -, -, hreads, -, hfollowed⟩ := clashing_computed.2.installation
  refine ⟨hdone, i, hreads, fun files l r h => ?_⟩
  have hmem : (("a", pathOfA "../a "), (⟨"a", "/a ", "path:../a ", ""⟩ : Resolved)) ∈
      i.steps.map fun x => (x.dependency, x.found.1) := by
    rw [hfollowed]
    exact List.mem_cons_self
  obtain ⟨x, hx, hfound⟩ := List.mem_map.1 hmem
  obtain ⟨hname, ha⟩ := Prod.mk.inj hfound
  have htrimmed := (Lockfile.load_settled h.read).source (h.listed x hx)
  rw [ha] at htrimmed
  have hspaced : Text.trim "path:../a " ≠ "path:../a " := by decide
  exact hspaced htrimmed

/-- A revision that is not a commit is looked up again, which takes the repository. -/
theorem moved_not_reproducible :
    (install (freshFiles "git: u, rev: v1") (sampleSetting sampleRemote)).1.code = 0 ∧
    ∃ i : Installation (freshFiles "git: u, rev: v1") (sampleSetting sampleRemote),
      i.written.ReadsBack ∧ ∀ files l, ¬ i.Reproducible files l .unreachable := by
  obtain ⟨hdone, i, -, -, hreads, -, hfollowed⟩ := fresh_computed.2.installation
  refine ⟨hdone, i, hreads, fun files l h => ?_⟩
  have hmem : (("lib", revisionOfLib "v1"), resolvedLib firstCommit) ∈
      i.steps.map fun x => (x.dependency, x.found.1) := by
    rw [hfollowed]
    exact List.mem_cons_self
  obtain ⟨x, hx, hfound⟩ := List.mem_map.1 hmem
  have hlib : x.dependency.2 = revisionOfLib "v1" := congrArg (·.1.2) hfound
  refine Loading.not_again Remote.failing_unreachable ?_ ?_ (h.followed x hx)
  · rw [hlib]
    rfl
  · have hgiven : (revisionOfLib "v1").rev ≠ "" := by decide
    rw [hlib, (Checkout.revisionAt_precedence _ _).1 hgiven]
    decide

/-- Installations are not always reproducible. -/
theorem not_always_reproducible :
    ((install clashingFiles (sampleSetting .unreachable)).1.code = 0 ∧
      ∃ i : Installation clashingFiles (sampleSetting .unreachable), i.written.ReadsBack ∧
        ∀ files l r, ¬ i.Reproducible files l r) ∧
    ((install spacedFiles (sampleSetting .unreachable)).1.code = 0 ∧
      ∃ i : Installation spacedFiles (sampleSetting .unreachable), i.written.ReadsBack ∧
        ∀ files l r, ¬ i.Reproducible files l r) ∧
    (install (freshFiles "git: u, rev: v1") (sampleSetting sampleRemote)).1.code = 0 ∧
      ∃ i : Installation (freshFiles "git: u, rev: v1") (sampleSetting sampleRemote),
        i.written.ReadsBack ∧ ∀ files l, ¬ i.Reproducible files l .unreachable :=
  ⟨clashing_not_reproducible, spaced_not_reproducible, moved_not_reproducible⟩

end Arbor.Command
