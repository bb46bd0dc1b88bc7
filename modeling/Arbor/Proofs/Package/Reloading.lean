import Arbor.Proofs.Package.Lockfiles
import Arbor.Proofs.Package.Programs

/-!
What is found again after a lockfile was written.

Neither manifests nor modules nor checkouts have the name of a lockfile, so whatever was found before
it was written, or before more packages were cloned, is found afterwards. A dependency is followed
again as it was, if its package is taken at the same commit (`LoadStep.Holds.follow_again`).
-/

set_option autoImplicit false

namespace Arbor

open Files (Tree)

/-! ## Names of files -/

namespace Format

theorem extension_slash (a : String) {e : String} (he : '/' ∉ e.toList) :
    extension (a ++ "/" ++ e) = extension e := by
  have hplain : ∀ c ∈ e.toList.reverse, (c != '/') = true := by
    intro c hc
    rw [bne_iff_ne]
    rintro rfl
    exact he (List.mem_reverse.1 hc)
  have hlast : (a ++ "/" ++ e).toList.reverse.takeWhile (· != '/') =
      e.toList.reverse.takeWhile (· != '/') := by
    simp only [String.toList_append, List.reverse_append, List.append_assoc]
    rw [List.takeWhile_append_of_pos hplain, List.takeWhile_eq_self_iff.2 hplain]
    simp
  simp only [extension, hlast]

/-- A file whose name tells its format is not a lockfile. -/
theorem names_of_ofPath {path : String} {f : Format} (h : ofPath path = .ok f) :
    ∃ es e, Files.names path = es ++ [e] ∧ Files.Ordinary e ∧ e ≠ Package.Lockfile.fileName := by
  obtain ⟨e, hslash, hpath⟩ := Files.exists_last path
  have hext : extension path = extension e := by
    obtain rfl | ⟨a, rfl⟩ := hpath
    · rfl
    · exact extension_slash a hslash
  unfold ofPath at h
  rw [hext] at h
  have hordinary : Files.Ordinary e := by
    refine ⟨⟨?_, hslash⟩, ?_, ?_⟩ <;> rintro rfl <;> cases h
  have hlock : e ≠ Package.Lockfile.fileName := by
    rintro rfl
    cases h
  obtain rfl | ⟨a, rfl⟩ := hpath
  · exact ⟨[], path, hordinary.plain.names, hordinary, hlock⟩
  · exact ⟨Files.names a, e, by rw [Files.names_slash, hordinary.plain.names], hordinary, hlock⟩

end Format

namespace Package

/-! ## What is found again -/

/-- What was there is still there, but for what lockfiles hold. -/
abbrev Kept (t t' : Tree) : Prop := t.Later (·.head? = some Lockfile.fileName) t'

variable {t t' : Tree} {here path : String}

theorem head_of_route {p : Files.Place} {es : List String} {e : String}
    (h : t.locate here path = .ok p) (hroute : Tree.route here path = es ++ [e])
    (he : Files.Ordinary e) (hne : e ≠ Lockfile.fileName) : ¬ p.head? = some Lockfile.fileName := by
  obtain ⟨q, rfl, -⟩ := Tree.locate_last h hroute he
  simpa using hne

theorem read_again (hk : Kept t t') {f : Format} {bytes : List UInt8}
    (hf : Format.ofPath path = .ok f) (h : t.read here path = .ok bytes) :
    t'.read here path = .ok bytes := by
  obtain ⟨es, e, hnames, he, hne⟩ := Format.names_of_ofPath hf
  have hroute : ∃ fs, Tree.route here path = fs ++ [e] := by
    unfold Tree.route
    split
    · exact ⟨es, hnames⟩
    · exact ⟨Files.names here ++ es, by rw [Files.names_slash, hnames, List.append_assoc]⟩
  obtain ⟨fs, hroute⟩ := hroute
  unfold Tree.read at h ⊢
  cases hlook : t.look .open here path with
  | error e =>
    rw [hlook] at h
    cases h
  | ok entry =>
    rw [hlook] at h
    rwa [hk.look hlook fun p hp => head_of_route hp hroute he hne]

theorem fileName_ordinary : Files.Ordinary Manifest.fileName := by decide

theorem Manifest.load_again (hk : Kept t t') {p : Files.Place} {m : Manifest}
    (hp : ∀ e ∈ fileName :: p, Files.Ordinary e)
    (hpath : Files.absolute here path = Files.Place.path (fileName :: p))
    (h : load t here path = .ok m) : load t' here path = .ok m := by
  unfold load at h ⊢
  split at h
  next => cases h
  next hempty =>
    rw [if_neg hempty]
    simp only [hpath] at h ⊢
    cases hlook : t.look .open here (Files.Place.path (fileName :: p)) with
    | error e =>
      rw [hlook] at h
      cases h
    | ok entry =>
      have hlook' := hk.look hlook fun q hq => by
        rw [Tree.locate_path hp hq, List.head?_cons]
        decide
      rw [hlook] at h
      rwa [hlook']

theorem Manifest.Stands.path_ne_empty {m : Manifest} (h : m.Stands t) : m.path ≠ "" := by
  obtain ⟨p, -, -, hp, -⟩ := h
  rw [hp]
  exact Files.ne_empty_of_isAbsolute (Files.isAbsolute_path p)

theorem Manifest.directory_ne_empty {m : Manifest} (hm : m.path ≠ "") : m.directory ≠ "" := by
  unfold directory
  rw [if_neg (by simpa using hm)]
  exact Files.clean_ne_empty _

theorem Manifest.resolve_ne_empty (m : Manifest) (hm : m.path ≠ "") (path : String) :
    m.resolve path ≠ "" := by
  unfold resolve
  split
  next habs => exact Files.ne_empty_of_isAbsolute habs
  next => exact Files.join_ne_empty (directory_ne_empty hm) path

/-! ## Dependencies that were followed -/

/-- A dependency of a package that was loaded, with what was found. -/
abbrev LoadStep := Step (String × Dependency) (Resolved × Manifest)

/-- What was found is what the files hold. -/
structure LoadStep.Holds (x : LoadStep) (c : Circumstances) (t : Tree) : Prop where
  name : x.found.1.name = x.dependency.1
  rooted : x.found.1.directory ≠ ""
  kept : x.dependency.2.isGit = true → ∃ cache, c.cache = some cache ∧
    Checkout.InCache ⟨x.found.1.directory, x.found.1.commit, x.found.1.source⟩ t c.here cache
      x.dependency.1 x.dependency.2
  path : x.dependency.2.isGit = false →
    t.look .stat c.here (x.package.resolve x.dependency.2.path) = .ok .directory ∧
      x.found.1 = ⟨x.dependency.1, x.package.resolve x.dependency.2.path,
        "path:" ++ x.dependency.2.path, ""⟩
  child : Manifest.load t c.here (Files.join x.found.1.directory Manifest.fileName) = .ok x.found.2

/-- A repository is taken at the same commit again: because that is the revision, or because the
repository is cloned and has the commit at the revision. -/
def LoadStep.Repeats (x : LoadStep) (r : Remote) (c : Circumstances) (t : Tree) : Prop :=
  x.dependency.2.isGit = true →
    x.dependency.2.revisionAt (c.pinned x.dependency.1) = x.found.1.commit ∨
    ∃ cache, c.cache = some cache ∧
      r.Offers t c.here (Checkout.base cache x.dependency.1) x.dependency.2.git
        (x.dependency.2.revisionAt (c.pinned x.dependency.1)) x.found.1.commit

theorem Checkout.InCache.later {x : Checkout} {cache name : String} {d : Dependency} (hk : Kept t t')
    (h : x.InCache t here cache name d) : x.InCache t' here cache name d := by
  obtain ⟨e, he⟩ := h.there
  have hordinary := isHash_ordinary h.hash
  refine ⟨h.git, h.home, h.hash, ⟨e, hk.look he fun p hp => ?_⟩, h.eq⟩
  rw [h.directory_eq] at hp
  refine head_of_route hp (Tree.route_join (base_clean h.home name).1 hordinary) hordinary ?_
  intro hname
  have hhash := h.hash
  rw [hname] at hhash
  revert hhash
  decide

namespace LoadStep.Holds

variable {x : LoadStep} {r : Remote} {c c' : Circumstances}

theorem later (habs : Files.isAbsolute c.here = true) (hk : Kept t t') (h : x.Holds c t) :
    x.Holds c t' where
  name := h.name
  rooted := h.rooted
  kept hgit := by
    obtain ⟨cache, hcache, hkept⟩ := h.kept hgit
    exact ⟨cache, hcache, hkept.later hk⟩
  path hpath := ⟨hk.look_directory (h.path hpath).1, (h.path hpath).2⟩
  child := by
    obtain ⟨q, hq, hfile⟩ := Files.absolute_join habs h.rooted fileName_ordinary
    exact Manifest.load_again hk hq hfile h.child

theorem trim_commit (h : x.Holds c t) : Text.trim x.found.1.commit = x.found.1.commit := by
  cases hgit : x.dependency.2.isGit with
  | true =>
    obtain ⟨cache, -, hkept⟩ := h.kept hgit
    exact trim_of_isHash hkept.hash
  | false =>
    rw [(h.path hgit).2]
    exact (by decide : Text.trim "" = "")

/-- A dependency is followed again as it was, and nothing changes. -/
theorem follow_again (ht : t.Sound) (hr : r.Orderly) (hhere : c'.here = c.here)
    (hcache : c'.cache = c.cache) (hc : c'.cancelled = false) (h : x.Holds c t)
    (hrepeats : x.Repeats r c' t) {p : Progress} (hp : p.files = t) :
    (Loading.follow Manifest.load r c' x.package x.dependency).run.run p = (.ok x.found, p) := by
  have hresolve : (Loading.resolve r c' x.package x.dependency.1 x.dependency.2).run.run p =
      (.ok x.found.1, p) := by
    subst hp
    unfold Loading.resolve
    rw [hhere, hcache]
    cases hgit : x.dependency.2.isGit with
    | true =>
      obtain ⟨cache, hsome, hkept⟩ := h.kept hgit
      have hfetch : Checkout.fetchFrom r p.files c.here cache x.dependency.1 (some x.dependency.2)
          (c'.pinned x.dependency.1) =
            (.ok ⟨x.found.1.directory, x.found.1.commit, x.found.1.source⟩, p.files) := by
        obtain hsame | ⟨cache', hsome', hoffers⟩ := hrepeats hgit
        · exact hkept.fetchFrom hsame r
        · rw [hcache, hsome] at hsome'
          cases hsome'
          rw [hhere] at hoffers
          exact hkept.fetchFrom_offered hr ht hoffers
      simp only [if_true, hsome]
      rw [Loading.run_get_bind]
      rw [Circumstances.pinned] at hfetch
      simp only [hfetch]
      rw [← h.name]
      rfl
    | false =>
      obtain ⟨hlook, hfound⟩ := h.path hgit
      simp only [Bool.false_eq_true, if_false]
      rw [Loading.run_get_bind, Loading.run_bind, Loading.run_check, hlook, hfound]
      rfl
  have hchild := h.child
  rw [← hp, ← hhere] at hchild
  unfold Loading.follow
  simp only [hc, Bool.false_eq_true, if_false]
  rw [Loading.run_bind, hresolve]
  simp only
  rw [Loading.run_get_bind, Loading.run_bind, Loading.run_check, hchild]
  rfl

end LoadStep.Holds

/-! ## Going on -/

/-- What was there is still there when loading goes on. -/
structure Progress.Advances (p p' : Progress) : Prop where
  sound : p'.files.Sound
  later : ∀ but, Tree.Later but p.files p'.files
  length : p.files.entries.length ≤ p'.files.entries.length

theorem Progress.Advances.refl {p : Progress} (h : p.files.Sound) : p.Advances p :=
  ⟨h, fun but => .refl but _, Nat.le_refl _⟩

theorem Progress.Advances.trans {p p' p'' : Progress} (h : p.Advances p') (h' : p'.Advances p'') :
    p.Advances p'' :=
  ⟨h'.sound, fun but => (h.later but).trans (h'.later but), Nat.le_trans h.length h'.length⟩

namespace Loading

variable {r : Remote} {c : Circumstances} {m : Manifest} {p p' : Progress}

theorem resolve_holds {name : String} {d : Dependency} {found : Resolved} (hr : r.Orderly)
    (hm : m.path ≠ "") (hp : p.files.Sound)
    (h : (resolve r c m name d).run.run p = (.ok found, p')) :
    p' = { p with files := p'.files } ∧ p.Advances p' ∧ found.name = name ∧ found.directory ≠ "" ∧
      (d.isGit = true → ∃ cache, c.cache = some cache ∧
        Checkout.InCache ⟨found.directory, found.commit, found.source⟩ p'.files c.here cache name d) ∧
      (d.isGit = false → p'.files.look .stat c.here (m.resolve d.path) = .ok .directory ∧
        found = ⟨name, m.resolve d.path, "path:" ++ d.path, ""⟩) := by
  unfold resolve at h
  split at h
  next hgit =>
    cases hcache : c.cache with
    | none =>
      rw [hcache] at h
      cases h
    | some cache =>
      simp only [hcache] at h
      rw [run_get_bind] at h
      cases hfetch : Checkout.fetchFrom r p.files c.here cache name (some d)
          (((c.lock.bind (·.find? name)).map (·.commit)).getD "") with
      | mk done files =>
        rw [hfetch] at h
        cases done with
        | error e => cases h
        | ok x =>
          cases h
          obtain ⟨hx, hsound, hlater, hlength⟩ := Checkout.fetchFrom_orderly hr hp hfetch
          refine ⟨rfl, ⟨hsound, hlater, hlength⟩, rfl, ?_, fun _ => ⟨cache, rfl, hx⟩, fun hnot => ?_⟩
          · rw [hx.directory_eq]
            exact Files.join_ne_empty (Checkout.base_clean hx.home name).1 _
          · cases hgit.symm.trans hnot
  next hgit =>
    simp only at h
    rw [run_get_bind, run_bind, run_check] at h
    cases hlook : p.files.look .stat c.here (m.resolve d.path) with
    | error e =>
      rw [hlook] at h
      cases h
    | ok entry =>
      rw [hlook] at h
      cases entry with
      | file bytes => cases h
      | directory =>
        cases h
        exact ⟨rfl, .refl hp, rfl, m.resolve_ne_empty hm d.path, fun hyes => absurd hyes hgit,
          fun _ => ⟨hlook, rfl⟩⟩

/-- Where a dependency is followed, the files hold what was found. -/
theorem follow_holds {d : String × Dependency} {found : Resolved × Manifest} (hr : r.Orderly)
    (hm : m.path ≠ "") (hp : p.files.Sound)
    (h : (follow Manifest.load r c m d).run.run p = (.ok found, p')) :
    p' = { p with files := p'.files } ∧ p.Advances p' ∧ LoadStep.Holds ⟨m, d, found⟩ c p'.files := by
  unfold follow at h
  split at h
  next => cases h
  next =>
    rw [run_bind] at h
    cases hresolve : (resolve r c m d.1 d.2).run.run p with
    | mk done p₁ =>
      rw [hresolve] at h
      cases done with
      | error e => cases h
      | ok x =>
        simp only at h
        rw [run_get_bind, run_bind, run_check] at h
        cases hload : Manifest.load p₁.files c.here (Files.join x.directory Manifest.fileName) with
        | error e =>
          rw [hload] at h
          cases h
        | ok child =>
          rw [hload] at h
          cases h
          obtain ⟨hsame, hadvances, hname, hrooted, hkept, hpath⟩ := resolve_holds hr hm hp hresolve
          exact ⟨hsame, hadvances, hname, hrooted, hkept, hpath, hload⟩

end Loading

end Package

end Arbor
