import Arbor.Command.Run
import Arbor.Proofs.Command.Installation
import Arbor.Proofs.Package.Fetching

/-!
What a command line does to the files where no repository can be cloned, however cloning fails.

An installation that says it wrote a lockfile has put down that file and nothing else. Any other
command line leaves every file as it was; if it looks for repositories, it may have made directories
of the cache (`run_changes`).
-/

set_option autoImplicit false

namespace Arbor.Command

open Files (Tree)
open Package

/-! ## Where directories are made -/

/-- The project a request is about, with what its dependencies are looked for with. -/
def Request.project? (t : Tree) (s : Setting) : Request → Option (Manifest × Circumstances)
  | .run start | .inspect start => (prepare t s start).toOption
  | .eval _ | .repl => (prepare t s "").toOption
  | .install => do
    let m ← (manifestFrom t s "").toOption
    let cache ← (cacheDirectory s).toOption
    let (l, _) ← (startingLock t s m).toOption
    return (m, ⟨s.here, some cache, some l, false⟩)
  | _ => none

/-- The place is that of a directory where a repository the project depends on is kept, or above
it. -/
def Request.Shelters (request : Request) (t : Tree) (s : Setting) (p : Files.Place) : Prop :=
  ∃ m c a name d cache, ∃ target : Files.Place, request.project? t s = some (m, c) ∧
    (c.survey s.remote t).Reaches m a ∧ (name, d) ∈ a.dependencies ∧ d.isGit = true ∧
    cacheDirectory s = .ok cache ∧
    target.path = Files.absolute s.here (Checkout.base cache name) ∧ p <:+ target

variable {t t' : Tree} {s : Setting} {m : Manifest} {c : Circumstances} {request : Request}

theorem prepare_facts {start : String} (h : prepare t s start = .ok (m, c)) :
    c.here = s.here ∧ ∀ cache, c.cache = some cache → cacheDirectory s = .ok cache := by
  simp only [prepare, bind, Except.bind, pure, Except.pure] at h
  split at h
  next => cases h
  next =>
    split at h
    next => cases h
    next =>
      split at h
      next =>
        cases hhome : cacheDirectory s with
        | error e =>
          rw [hhome] at h
          cases h
        | ok home =>
          rw [hhome] at h
          cases h
          exact ⟨rfl, fun cache hcache => congrArg Except.ok (Option.some.inj hcache)⟩
      next =>
        cases h
        exact ⟨rfl, fun cache hcache => absurd hcache (Option.some_ne_none cache).symm⟩

section

variable (hr : s.remote.Failing) (hc : s.remote.Confined) (ht : t.Sound) (hs : s.WorksIn t)
include hr hc ht hs

theorem load_grew (hproject : request.project? t s = some (m, c)) (hhere : c.here = s.here)
    (hcache : ∀ cache, c.cache = some cache → cacheDirectory s = .ok cache) :
    Tree.GrewAt (request.Shelters t s) t (Program.load c t (some m) s.remote s.fuel).2 := by
  obtain ⟨w, hw, hplace, -⟩ := hs
  obtain hsame | ⟨-, a, name, d, cache, ha, hd, hgit, hhome, hgrew⟩ :=
    Program.load_left hr hc hw (hhere.trans hplace) ht m s.fuel
  · rw [hsame]
    exact .refl _ t
  · refine hgrew.imp fun p hp => ?_
    have htarget := Files.Place.path_along hw (Checkout.base cache name)
    rw [← hplace] at htarget
    exact ⟨m, c, a, name, d, cache, _, hproject, ha, hd, hgit, hcache cache hhome, htarget, hp⟩

theorem loadProgram_grew {start : String}
    (hproject : request.project? t s = (prepare t s start).toOption) :
    Tree.GrewAt (request.Shelters t s) t (loadProgram t s start).2 := by
  unfold loadProgram
  cases hprepare : prepare t s start with
  | error e => exact .refl _ t
  | ok x =>
    obtain ⟨m, c⟩ := x
    obtain ⟨hhere, hcache⟩ := prepare_facts hprepare
    rw [hprepare] at hproject
    exact load_grew hr hc ht hs hproject hhere hcache

end

theorem optionalProgram_files (t : Tree) (s : Setting) :
    (optionalProgram t s).2 = (loadProgram t s "").2 := by
  unfold optionalProgram
  split <;> simp only [*]

/-! ## Installing -/

theorem lockfilePath_beside (hm : m.Stands t) : ∃ (e : String) (dir : Files.Place),
    (∀ x ∈ Lockfile.fileName :: dir, Files.Ordinary x) ∧ m.path = Files.Place.path (e :: dir) ∧
      lockfilePath m = Files.Place.path (Lockfile.fileName :: dir) := by
  obtain ⟨p, bytes, hp, hpath, hat, -⟩ := hm
  cases p with
  | nil => cases hat
  | cons e dir =>
    have hdir : ∀ x ∈ Lockfile.fileName :: dir, Files.Ordinary x :=
      List.forall_mem_cons.2 ⟨by decide, (List.forall_mem_cons.1 hp).2⟩
    have hne : m.path.isEmpty = false := by
      simpa [hpath] using Files.ne_empty_of_isAbsolute (Files.isAbsolute_path (e :: dir))
    refine ⟨e, dir, hdir, hpath, ?_⟩
    rw [lockfilePath, Manifest.directory, hne, if_neg Bool.false_ne_true, hpath,
      Files.directory_path hp, Files.join_path hdir]

/-- The command did its work and says that it wrote a file. -/
def Outcome.Wrote (o : Outcome) (path : String) : Prop :=
  o.code = 0 ∧ "Wrote " ++ path ∈ o.report.out

theorem lockAll_lines (ds : List Resolved) (l : Lockfile) :
    ∀ line ∈ (lockAll ds l).1, ∃ rest, line = "Locked " ++ rest := by
  induction ds generalizing l with
  | nil => exact nofun
  | cons d ds ih =>
    simp only [lockAll]
    split
    next => exact ih _
    next =>
      refine List.forall_mem_cons.2 ⟨⟨d.name ++ " " ++ d.source, ?_⟩, ih _⟩
      simp only [String.append_assoc]

theorem wrote_ne {b : String} (hb : b ≠ "") (h : b.toList.head? ≠ some 'W') (path rest : String) :
    "Wrote " ++ path ≠ b ++ rest := by
  intro heq
  have hhead := congrArg (·.toList.head?) heq
  have hb' : b.toList ≠ [] := by simpa using hb
  simp only [String.toList_append, List.head?_append_of_ne_nil _ hb'] at hhead
  exact h hhead.symm

theorem wrote_not_mem_preamble (m : Manifest) (cache path : String) :
    "Wrote " ++ path ∉ (preamble m cache).out := by
  intro hmem
  simp only [preamble, List.mem_cons, List.not_mem_nil, or_false] at hmem
  obtain h | h | h | h := hmem
  all_goals exact wrote_ne (by decide) (by decide) path _ h

theorem wrote_not_mem_lines (ds : List Resolved) (l : Lockfile) (path : String) :
    "Wrote " ++ path ∉ (lockAll ds l).1 := by
  intro hmem
  obtain ⟨rest, hline⟩ := lockAll_lines ds l _ hmem
  exact wrote_ne (by decide) (by decide) path rest hline

namespace Installation

variable (i : Installation t s)

theorem files_eq (hr : s.remote.Failing) (hc : s.remote.Confined) (ht : t.Sound)
    (hs : s.WorksIn t) : i.files = t := by
  obtain ⟨w, hw, hplace, -⟩ := hs
  have hloaded := i.loaded
  have hhere : i.circumstances.here = w.path := hplace
  obtain hsame | ⟨⟨e, he⟩, -⟩ := Program.load_left hr hc hw hhere ht i.manifest s.fuel
  · exact (congrArg Prod.snd hloaded).symm.trans hsame
  · cases he.symm.trans (congrArg Prod.fst hloaded)

/-- The last line of an installation tells whether the lockfile was written. -/
theorem install_cases (hr : s.remote.Failing) (hc : s.remote.Confined) (ht : t.Sound)
    (hs : s.WorksIn t) :
    (∀ path, ¬(install t s).1.Wrote path) ∧ (install t s).2 = t ∧
      ((install t s).1.code = 0 → i.locked.1 = []) ∨
    (∀ path, (install t s).1.Wrote path ↔ path = lockfilePath i.manifest) ∧
      t.write s.here i.written.path (Text.bytes i.written.text) = .ok (install t s).2 := by
  have hlocked : lockAll i.program.dependencies i.lock = i.locked := rfl
  have hlines := wrote_not_mem_lines i.program.dependencies i.lock
  have hpreamble := wrote_not_mem_preamble i.manifest i.cache
  have hout : ∀ path line, "Wrote " ++ path ∈
      (preamble i.manifest i.cache).out ++ (i.locked.1 ++ [line]) → "Wrote " ++ path = line := by
    intro path line hmem
    obtain h | h := List.mem_append.1 hmem
    · exact absurd h (hpreamble path)
    · obtain h | h := List.mem_append.1 h
      · exact absurd h (hlines path)
      · exact List.mem_singleton.1 h
  have hsave := i.save_locked hs
  rw [i.files_eq hr hc ht hs] at hsave
  rw [i.install_eq, i.files_eq hr hc ht hs]
  simp only [writeLock, hlocked, hsave]
  split
  next =>
    cases hwrite : t.write s.here i.written.path (Text.bytes i.written.text) with
    | error e =>
      refine .inl ⟨fun path h => ?_, rfl, fun hcode => ?_⟩
      · cases h.1
      · cases hcode
    | ok files =>
      refine .inr ⟨fun path => ⟨fun h => ?_, ?_⟩, rfl⟩
      · exact (String.append_right_inj _).1 (hout path _ h.2)
      · rintro rfl
        exact ⟨rfl, List.mem_append_right _ (List.mem_append_right _ (List.mem_singleton.2 rfl))⟩
  next hsame =>
    simp only [Bool.or_eq_true, not_or, Bool.not_eq_true, Bool.not_eq_false',
      List.isEmpty_iff] at hsame
    refine .inl ⟨fun path h => ?_, rfl, fun _ => hsame.2⟩
    have hline : "Wrote " ++ path = "Lockfile up to date" ++ "" := hout path _ h.2
    exact wrote_ne (by decide) (by decide) path "" hline

end Installation

section

variable (hr : s.remote.Failing) (hc : s.remote.Confined) (ht : t.Sound) (hs : s.WorksIn t)
include hr hc ht hs

theorem install_grew (h : ∀ path, ¬(install t s).1.Wrote path) :
    Tree.GrewAt (Request.install.Shelters t s) t (install t s).2 := by
  by_cases hi : Nonempty (Installation t s)
  · obtain ⟨i⟩ := hi
    obtain ⟨-, hsame, -⟩ | ⟨hwrote, -⟩ := i.install_cases hr hc ht hs
    · rw [hsame]
      exact .refl _ t
    · exact absurd ((hwrote _).2 rfl) (h _)
  · -- It failed before or while the dependencies were resolved.
    unfold install
    split
    next => exact .refl _ t
    next m hm =>
      split
      next => exact .refl _ t
      next cache hcache =>
        unfold installFor
        simp only
        split
        next => exact .refl _ t
        next l isNew hl =>
          have hproject : Request.install.project? t s =
              some (m, ⟨s.here, some cache, some l, false⟩) := by
            simp only [Request.project?, hm, hcache, hl, Except.toOption, Option.bind_eq_bind,
              Option.bind_some]
            rfl
          have hgrew := load_grew hr hc ht hs hproject rfl fun cache' hhome => by
            cases hhome
            exact hcache
          split
          next e t' hload =>
            rw [hload] at hgrew
            exact hgrew
          next p t' hload =>
            exact absurd ⟨⟨m, cache, l, isNew, p, t', hm, hcache, hl, hload⟩⟩ hi

/-- An installation that says it wrote a file put the lockfile down beside the manifest and changed
nothing else. -/
theorem install_wrote {path : String} (h : (install t s).1.Wrote path) :
    ∃ (i : Installation t s) (e : String) (dir : Files.Place),
      i.manifest.path = Files.Place.path (e :: dir) ∧
      path = Files.Place.path (Lockfile.fileName :: dir) ∧
      t.at? (Lockfile.fileName :: dir) ≠ some .directory ∧
      ∀ p, (install t s).2.at? p = if p = Lockfile.fileName :: dir
        then some (.file (Text.bytes i.written.text)) else t.at? p := by
  obtain ⟨i⟩ := Installation.nonempty_of_done h.1
  obtain ⟨hnone, -⟩ | ⟨hpath, hwrite⟩ := i.install_cases hr hc ht hs
  · exact absurd h (hnone path)
  · obtain ⟨e, dir, hdir, hmanifest, hlock⟩ := lockfilePath_beside (i.stands hs)
    have hwritten : i.written.path = Files.Place.path (Lockfile.fileName :: dir) := by
      change Files.absolute s.here (lockfilePath i.manifest) = _
      rw [hlock, Files.absolute_path hdir]
    rw [hwritten] at hwrite
    obtain ⟨hset, hfile, -, -⟩ := Tree.look_written hdir hwrite
    refine ⟨i, e, dir, hmanifest, ((hpath path).1 h).trans hlock, hfile, fun p => ?_⟩
    rw [hset, Tree.at?_set t (List.cons_ne_nil _ _)]

end

/-! ## Every command line -/

/-- Any other request leaves the files as loading its project does, if it comes to that. -/
theorem carryOut_files {traced : Bool} {outcome : Outcome} (hne : request ≠ .install)
    (h : carryOut t s traced request = some (outcome, t')) :
    t' = t ∨ ∃ start, request.project? t s = (prepare t s start).toOption ∧
      t' = (loadProgram t s start).2 := by
  have hmap : ∀ {x : Option Outcome} {files : Tree},
      x.map (·, files) = some (outcome, t') → t' = files := by
    intro x files hx
    obtain ⟨o, -, ho⟩ := Option.map_eq_some_iff.1 hx
    exact (congrArg Prod.snd ho).symm
  delta carryOut at h
  cases request with
  | nothing | help | version | refused =>
    cases h
    exact .inl rfl
  | install => exact absurd rfl hne
  | run start =>
    refine .inr ⟨start, rfl, ?_⟩
    dsimp only at h
    split at h
    next e files hload =>
      rw [hload]
      cases h
      rfl
    next p files hload =>
      rw [hload]
      exact hmap h
  | inspect start =>
    refine .inr ⟨start, rfl, ?_⟩
    dsimp only at h
    split at h
    all_goals
      next hload =>
        rw [hload]
        cases h
        rfl
  | eval document =>
    dsimp only at h
    split at h
    next =>
      cases h
      exact .inl rfl
    next =>
      refine .inr ⟨"", rfl, ?_⟩
      rw [← optionalProgram_files]
      split at h
      next e files hload =>
        rw [hload]
        cases h
        rfl
      next p files hload =>
        rw [hload]
        exact hmap h
  | repl =>
    refine .inr ⟨"", rfl, ?_⟩
    rw [← optionalProgram_files]
    dsimp only at h
    split at h
    next e files hload =>
      rw [hload]
      cases h
      rfl
    next p files hload =>
      rw [hload]
      exact hmap h

/-- An installation that says it wrote a file put the lockfile down beside the manifest and changed
nothing else. Every other command line leaves all files as they were, and at most makes directories
of the cache. -/
theorem run_changes {arguments : List String} {outcome : Outcome} (hr : s.remote.Failing)
    (hc : s.remote.Confined) (ht : t.Sound) (hs : s.WorksIn t)
    (h : run t s arguments = some (outcome, t')) :
    (∀ path, (parse arguments).2 = .install → outcome.Wrote path →
      ∃ (i : Installation t s) (e : String) (dir : Files.Place),
        i.manifest.path = Files.Place.path (e :: dir) ∧
        path = Files.Place.path (Lockfile.fileName :: dir) ∧
        t.at? (Lockfile.fileName :: dir) ≠ some .directory ∧
        ∀ p, t'.at? p = if p = Lockfile.fileName :: dir
          then some (.file (Text.bytes i.written.text)) else t.at? p) ∧
    ((∀ path, (parse arguments).2 = .install → ¬outcome.Wrote path) →
      Tree.GrewAt ((parse arguments).2.Shelters t s) t t' ∧
        ∀ p bytes, t'.at? p = some (.file bytes) ↔ t.at? p = some (.file bytes)) := by
  unfold run at h
  simp only at h
  generalize (parse arguments).1 = traced at h
  generalize (parse arguments).2 = request at h ⊢
  constructor
  · rintro path rfl hwrote
    have hrun : install t s = (outcome, t') := Option.some.inj h
    obtain rfl : (install t s).1 = outcome := congrArg Prod.fst hrun
    obtain rfl : (install t s).2 = t' := congrArg Prod.snd hrun
    exact install_wrote hr hc ht hs hwrote
  · intro hnot
    have hgrew : Tree.GrewAt (request.Shelters t s) t t' := by
      by_cases hinstall : request = .install
      · subst hinstall
        have hrun : install t s = (outcome, t') := Option.some.inj h
        obtain rfl : (install t s).1 = outcome := congrArg Prod.fst hrun
        obtain rfl : (install t s).2 = t' := congrArg Prod.snd hrun
        exact install_grew hr hc ht hs fun path => hnot path rfl
      · obtain rfl | ⟨start, hproject, rfl⟩ := carryOut_files hinstall h
        · exact .refl _ _
        · exact loadProgram_grew hr hc ht hs hproject
    exact ⟨hgrew, hgrew.file_iff⟩

set_option maxRecDepth 100000 in
/-- Where nothing can be cloned, the project is not installed, and a directory is left behind. -/
theorem unreached_computed :
    ((install (freshFiles "git: u") (sampleSetting .unreachable)).1.code,
      (install (freshFiles "git: u") (sampleSetting .unreachable)).2.at? ["lib", "git", "home"]) =
        (1, some .directory) := by
  decide +kernel

theorem clashing_sound : clashingFiles.Sound := Tree.sound_of_entries (by decide)

theorem run_changes_clashing :
    (∃ outcome files, run clashingFiles (sampleSetting .unreachable) ["deps", "install"] =
        some (outcome, files) ∧
      outcome.Wrote "/p/lorgn.lock" ∧ ∃ place : Files.Place, place.path = "/p/lorgn.lock" ∧
        ∀ p, p ≠ place → files.at? p = clashingFiles.at? p) ∧
    ∃ outcome files, run (freshFiles "git: u") (sampleSetting .unreachable) ["deps", "install"] =
        some (outcome, files) ∧
      outcome.code = 1 ∧ files.at? ["lib", "git", "home"] = some .directory ∧
      ∀ p bytes, files.at? p = some (.file bytes) ↔
        (freshFiles "git: u").at? p = some (.file bytes) := by
  have hr := Remote.failing_unreachable
  have hc := Remote.confined_unreachable
  constructor
  · have hworks : (sampleSetting .unreachable).WorksIn clashingFiles :=
      sampleSetting_worksIn (by decide)
    obtain ⟨hdone, i, hmanifest, hlock, -, hrecorded, -⟩ := clashing_computed.1.installation
    have hlines : i.locked.1 ≠ [] := by
      rw [Installation.locked, hrecorded, hlock]
      decide
    obtain ⟨-, -, hnone⟩ | ⟨hwrote, -⟩ := i.install_cases hr hc clashing_sound hworks
    · exact absurd (hnone hdone) hlines
    · have hpath : "/p/lorgn.lock" = lockfilePath i.manifest := by
        rw [hmanifest]
        decide +kernel
      have hrun : run clashingFiles (sampleSetting .unreachable) ["deps", "install"] =
          some (install clashingFiles (sampleSetting .unreachable)) := rfl
      have hwrote := (hwrote _).2 hpath
      obtain ⟨_, _, dir, -, hplace, -, hfiles⟩ :=
        (run_changes hr hc clashing_sound hworks hrun).1 _ (by decide) hwrote
      refine ⟨_, _, hrun, hwrote, _, hplace.symm, fun p hp => ?_⟩
      rw [hfiles, if_neg hp]
  · obtain ⟨hcode, hmade⟩ := Prod.mk.inj unreached_computed
    have hworks : (sampleSetting .unreachable).WorksIn (freshFiles "git: u") :=
      sampleSetting_worksIn (by decide)
    have hrun : run (freshFiles "git: u") (sampleSetting .unreachable) ["deps", "install"] =
        some (install (freshFiles "git: u") (sampleSetting .unreachable)) := rfl
    have hnot : ∀ path, ¬(install (freshFiles "git: u") (sampleSetting .unreachable)).1.Wrote path := by
      rintro path ⟨hzero, -⟩
      cases hcode.symm.trans hzero
    have hchanges := (run_changes hr hc cloned_sound hworks hrun).2 fun path _ => hnot path
    exact ⟨_, _, hrun, hcode, hmade, hchanges.2⟩

end Arbor.Command
