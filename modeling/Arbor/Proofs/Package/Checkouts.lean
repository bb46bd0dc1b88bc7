import Arbor.Package.Checkout
import Arbor.Proofs.Files.Moving

/-!
Checkouts of repositories, and what fetching one does to the files.

* What is in the cache is found without a repository being cloned, if the revision is its commit
  (`Checkout.InCache.fetchFrom`).
* Cloning is up to a `Remote`. If it fails, and writes nowhere but into the directory it is given
  (`Remote.Confined`, `Remote.Failing`), then a checkout is found exactly if it is in the cache
  (`Checkout.fetchFrom_found`), and otherwise all that is left is the directory of the package
  (`Checkout.clone_at?`).
* Where cloning is `Remote.Orderly`, a checkout that comes out is in the cache afterwards, and
  everything that was there is still there (`Checkout.fetchFrom_orderly`).
-/

set_option autoImplicit false

namespace Arbor.Package

open Files (Tree)

/-! ## Names in the cache -/

theorem packageName_segment (s : String) : ∀ c ∈ (packageName s).toList, Text.isSegmentChar c := by
  intro c hc
  simp only [packageName, String.toList_ofList, Text.segment, List.mem_map] at hc
  obtain ⟨c', -, rfl⟩ := hc
  split
  · assumption
  · decide

theorem packageName_ordinary {s : String} (h : packageName s ≠ "") :
    Files.Ordinary (packageName s) := by
  have hdot : '.' ∉ (packageName s).toList := fun hc =>
    absurd (packageName_segment s '.' hc) (by decide)
  have hslash : '/' ∉ (packageName s).toList := fun hc =>
    absurd (packageName_segment s '/' hc) (by decide)
  refine ⟨⟨h, hslash⟩, fun he => hdot ?_, fun he => hdot ?_⟩
  · rw [he]
    decide
  · rw [he]
    decide

theorem isHash_ordinary {s : String} (h : isHash s = true) : Files.Ordinary s := by
  simp only [isHash, Bool.and_eq_true, beq_iff_eq, List.all_eq_true] at h
  obtain ⟨hlength, hall⟩ := h
  have hslash : '/' ∉ s.toList := fun hc => absurd (hall '/' hc) (by decide)
  refine ⟨⟨?_, hslash⟩, ?_, ?_⟩ <;> rintro rfl <;> revert hlength <;> decide

/-! ## Repositories outside -/

namespace Remote

/-- Cloning into a directory writes nowhere but there. -/
def Confined (r : Remote) : Prop :=
  ∀ (here url directory : String) (t : Tree) (p : Files.Place), t.locate here directory = .ok p →
    ∀ q : Files.Place, ¬ p <:+ q → (r.clone here url directory t).2.at? q = t.at? q

/-- Nothing can be cloned. -/
def Failing (r : Remote) : Prop :=
  ∀ here url directory t, ∃ message, (r.clone here url directory t).1 = .error message

/-- Cloning into a new place, and checking out there, makes a directory there and changes nothing
else. -/
structure Orderly (r : Remote) : Prop where
  clone : ∀ (here url directory : String) (t : Tree) (p : Files.Place), t.Sound →
    t.locate here directory = .ok p → t.at? p = none →
    Tree.Within p t (r.clone here url directory t).2
  checkOut : ∀ (here url directory : String) (t : Tree) (p : Files.Place), t.Sound →
    t.locate here directory = .ok p → t.at? p = none →
    ∀ repository checkOut hash, (r.clone here url directory t).1 = .ok repository →
      repository.worktree = .ok checkOut →
      Tree.Within p t (checkOut hash (r.clone here url directory t).2).2

/-- A repository can be cloned, and has the commit at a revision that is not kept by itself. -/
structure Offers (r : Remote) (t : Tree)
    (here base url revision commit : String) : Prop where
  unkept : ¬ (isHash revision = true ∧
    ∃ e, t.look .stat here (Files.join base revision) = .ok e)
  cloned : ∃ directory repository hash,
    (t.makeTemporary here (base ++ "/git-fetch-") r.random Checkout.tries).1 = .ok directory ∧
    (r.clone here url directory t).1 = .ok repository ∧
    repository.resolve revision = .ok hash ∧ hash.text = commit

theorem confined_unreachable : unreachable.Confined := fun _ _ _ _ _ _ _ _ => rfl

theorem failing_unreachable : unreachable.Failing := fun _ _ _ _ => ⟨_, rfl⟩

theorem orderly_unreachable : unreachable.Orderly where
  clone here url directory t p ht _ hnone :=
    ⟨ht, rfl, fun bytes hfile => by cases hnone.symm.trans hfile⟩
  checkOut here url directory t p _ _ _ repository checkOut hash hclone := by cases hclone

end Remote

namespace Checkout

theorem base_clean {cache : String} (h : cache ≠ "") (name : String) :
    base cache name ≠ "" ∧ Files.cleanElements (base cache name) ≠ [] := by
  have hgit : Files.Ordinary "git" := by decide
  have hne := Files.join_ne_empty h "git"
  have hclean : Files.cleanElements (Files.join cache "git") ≠ [] := by
    rw [Files.cleanElements_join h hgit]
    simp
  refine ⟨Files.join_ne_empty hne _, ?_⟩
  unfold base
  by_cases hname : packageName name = ""
  · rwa [hname, Files.cleanElements_join_empty hne hclean]
  · rw [Files.cleanElements_join hne (packageName_ordinary hname)]
    simp

theorem names_base {cache : String} (h : cache ≠ "") (name : String) :
    Files.names (base cache name) = Files.cleanElements (base cache name) := by
  have hclean := (base_clean h name).2
  rw [base, Files.join_eq (Files.join_ne_empty h "git")] at hclean ⊢
  exact Files.names_clean_self hclean

/-! ## What is in the cache -/

/-- There is something where the checkout of a dependency is kept. -/
structure InCache (x : Checkout) (t : Tree) (here cache name : String) (d : Dependency) : Prop where
  git : d.isGit = true
  home : cache ≠ ""
  hash : isHash x.commit = true
  there : ∃ e, t.look .stat here x.directory = .ok e
  eq : x = ⟨Files.join (base cache name) x.commit, x.commit, sourceOf d.git x.commit⟩

section

variable {r : Remote} {t t' : Tree} {here cache name pinned : String} {d : Dependency} {x : Checkout}

theorem inCache_of_there {commit : String} (hgit : d.isGit = true) (hcache : cache ≠ "")
    (hhash : isHash commit = true)
    (hthere : ∃ e, t.look .stat here (Files.join (base cache name) commit) = .ok e) :
    InCache ⟨Files.join (base cache name) commit, commit, sourceOf d.git commit⟩ t here cache name d :=
  ⟨hgit, hcache, hhash, hthere, rfl⟩

theorem InCache.directory_eq (h : x.InCache t here cache name d) :
    x.directory = Files.join (base cache name) x.commit := congrArg directory h.eq

/-- Where the directory of a checkout is there, making the one above it changes nothing. -/
theorem InCache.makeDirectories (h : x.InCache t here cache name d) :
    t.makeDirectories here (base cache name) = (.ok (), t) := by
  obtain ⟨e, he⟩ := h.there
  rw [h.directory_eq] at he
  exact Tree.makeEach_of_allThere
    (Tree.allThere_of_look (base_clean h.home name).1 (isHash_ordinary h.hash) he)

/-- A checkout in the cache is found without anything being cloned. -/
theorem InCache.fetchFrom (h : x.InCache t here cache name d)
    (hrevision : d.revisionAt pinned = x.commit) (r : Remote) :
    fetchFrom r t here cache name (some d) pinned = (.ok x, t) := by
  obtain ⟨e, he⟩ := h.there
  rw [h.directory_eq] at he
  have hx := h.eq
  simp only [Checkout.fetchFrom, Option.filter, h.git, if_true, h.home, String.isEmpty_iff, if_false,
    h.makeDirectories, hrevision, h.hash, he, Except.toBool, Bool.and_self]
  rw [← hx]

/-- A checkout that comes out was in the cache, or it was cloned. -/
theorem fetchFrom_cases (ht : t.Sound)
    (h : fetchFrom r t here cache name (some d) pinned = (.ok x, t')) :
    (t' = t ∧ d.revisionAt pinned = x.commit ∧ x.InCache t here cache name d) ∨
      (d.isGit = true ∧ cache ≠ "" ∧ ∃ t₁, t.makeDirectories here (base cache name) = (.ok (), t₁) ∧
        clone r t₁ here (base cache name) d.git (d.revisionAt pinned) = (.ok x, t')) := by
  unfold Checkout.fetchFrom at h
  cases hgit : d.isGit with
  | false => simp [Option.filter, hgit] at h
  | true =>
    simp only [Option.filter, hgit, if_true] at h
    split at h
    next => cases h
    next hcache =>
      have hcache : cache ≠ "" := by simpa using hcache
      split at h
      next => cases h
      next t₁ hmake =>
        split at h
        next hfound =>
          cases h
          obtain ⟨hhash, hlook⟩ := Bool.and_eq_true_iff.1 hfound
          cases hentry : t'.look .stat here
              (Files.join (base cache name) (d.revisionAt pinned)) with
          | error e =>
            rw [hentry] at hlook
            cases hlook
          | ok entry =>
            obtain ⟨hne, hclean⟩ := base_clean hcache name
            obtain ⟨rfl, -⟩ := Tree.makeDirectories_found ht hne hclean
              (isHash_ordinary hhash) hmake hentry
            exact .inl ⟨rfl, rfl, hgit, hcache, hhash, ⟨entry, hentry⟩, rfl⟩
        next => exact .inr ⟨rfl, hcache, t₁, hmake, h⟩

end

/-! ## Cloning that fails -/

section

variable {r : Remote} {t : Tree}

theorem set_outside {p : Files.Place} (hnone : t.at? p = none) (q : Files.Place) (hq : ¬ p <:+ q) :
    (t.set p .directory).at? q = t.at? q := by
  have hne : p ≠ [] := by
    rintro rfl
    cases hnone
  rw [Tree.at?_set t hne, if_neg]
  rintro rfl
  exact hq List.suffix_rfl

theorem temporary_eq (base : String) (n : Nat) :
    base ++ "/git-fetch-" ++ toString n = base ++ "/" ++ ("git-fetch-" ++ toString n) := by
  have hslash : "/git-fetch-" = "/" ++ "git-fetch-" := by decide
  rw [hslash]
  simp only [String.append_assoc]

theorem temporary_ordinary (n : Nat) : Files.Ordinary ("git-fetch-" ++ toString n) :=
  Tree.number_ordinary (by decide) (by decide) (by decide) n

theorem temporary_not_endsWith (base : String) (n : Nat) :
    (base ++ "/git-fetch-" ++ toString n).endsWith "/" = false := by
  refine (temporary_ordinary n).plain.not_endsWith ?_
  have happend : (base ++ "/" ++ ("git-fetch-" ++ toString n)).toList =
      (base ++ "/").toList ++ ("git-fetch-" ++ toString n).toList := String.toList_append
  rw [temporary_eq, happend]
  exact List.suffix_append _ _

/-- Nothing is cloned, or it is tried at a place that is new. -/
theorem clone_cases (ht : t.Sound) (r : Remote) (here base url revision : String) :
    (∃ e, (t.makeTemporary here (base ++ "/git-fetch-") r.random tries).1 = .error e ∧
        clone r t here base url revision = (.error (.files e), t)) ∨
      ∃ (n : Nat) (p : Files.Place),
        (t.makeTemporary here (base ++ "/git-fetch-") r.random tries).1 =
          .ok (base ++ "/git-fetch-" ++ toString n) ∧
        t.locate here (base ++ "/git-fetch-" ++ toString n) = .ok p ∧ t.at? p = none ∧
        clone r t here base url revision =
          cloneInto r t here base (base ++ "/git-fetch-" ++ toString n) url revision := by
  unfold clone
  generalize hmake : t.makeTemporary here (base ++ "/git-fetch-") r.random tries = made
  obtain ⟨x, t₁⟩ := made
  obtain ⟨e, rfl, rfl⟩ | ⟨n, p, rfl, hlocate, hnone, rfl⟩ := Tree.makeTemporary_cases hmake
  · exact .inl ⟨e, rfl, rfl⟩
  · refine .inr ⟨n, p, rfl, hlocate, hnone, ?_⟩
    simp only [Tree.removeAll_outside ht hlocate hnone (temporary_not_endsWith base n)
      (set_outside hnone), ht.set_without hnone]

section

variable (hr : r.Failing)
include hr

theorem clone_failing (t : Tree) (here base url revision : String) :
    ∃ e, (clone r t here base url revision).1 = .error e := by
  unfold clone
  split
  next e _ _ => exact ⟨.files e, rfl⟩
  next directory t₁ _ =>
    split
    next e _ _ => exact ⟨.files e, rfl⟩
    next t₂ _ =>
      obtain ⟨message, hmessage⟩ := hr here url directory t₂
      unfold cloneInto
      split
      next => exact ⟨_, rfl⟩
      next heq =>
        rw [heq] at hmessage
        cases hmessage

/-- Nothing but a full hash is found. -/
theorem fetchFrom_of_not_isHash (t : Tree) {d : Dependency} {pinned : String}
    (hhash : isHash (d.revisionAt pinned) = false) (here cache name : String) :
    ∃ e, (fetchFrom r t here cache name (some d) pinned).1 = .error e := by
  unfold fetchFrom
  split
  next => exact ⟨_, rfl⟩
  next d' hd =>
    obtain rfl : d = d' := Option.some.inj (Option.filter_eq_some_iff.1 hd).1
    split
    next => exact ⟨_, rfl⟩
    next =>
      dsimp only
      split
      next => exact ⟨_, rfl⟩
      next t₁ _ =>
        rw [hhash, Bool.false_and, if_neg Bool.false_ne_true]
        exact clone_failing hr t₁ here _ _ _

/-- What was cloned into a new place is taken away again. -/
theorem clone_at? (hc : r.Confined) (ht : t.Sound) (here base url revision : String)
    (q : Files.Place) : (clone r t here base url revision).2.at? q = t.at? q := by
  obtain ⟨e, -, hclone⟩ | ⟨n, p, -, hlocate, hnone, hclone⟩ := clone_cases ht r here base url revision
  · rw [hclone]
  · obtain ⟨message, hmessage⟩ := hr here url (base ++ "/git-fetch-" ++ toString n) t
    have hout := hc here url (base ++ "/git-fetch-" ++ toString n) t p hlocate
    rw [hclone]
    unfold cloneInto
    split
    next t' heq =>
      rw [heq] at hout
      rw [Tree.removeAll_outside ht hlocate hnone (temporary_not_endsWith base n) hout]
      exact Tree.at?_removed ht hnone hout q
    next heq =>
      rw [heq] at hmessage
      cases hmessage

/-- A checkout is found exactly if it is in the cache, and the files stay as they are. -/
theorem fetchFrom_found {t' : Tree} {here cache name pinned : String} {d : Dependency} {x : Checkout}
    (ht : t.Sound) : fetchFrom r t here cache name (some d) pinned = (.ok x, t') ↔
      t' = t ∧ d.revisionAt pinned = x.commit ∧ x.InCache t here cache name d := by
  constructor
  · intro h
    obtain hfound | ⟨-, -, t₁, hmake, hclone⟩ := fetchFrom_cases ht h
    · exact hfound
    · obtain ⟨e, he⟩ := clone_failing hr t₁ here (base cache name) d.git (d.revisionAt pinned)
      rw [hclone] at he
      cases he
  · rintro ⟨rfl, hrevision, hcache⟩
    exact hcache.fetchFrom hrevision r

/-- Whatever comes of it, no more is left than directories down to the one of the package. -/
theorem fetchFrom_grew (hc : r.Confined) {w : Files.Place} {cache name : String} (ht : t.Sound)
    (hw : ∀ e ∈ w, Files.Ordinary e) (d : Option Dependency) (pinned : String) :
    Tree.GrewAt (· <:+ w.along (base cache name)) t
      (fetchFrom r t w.path cache name d pinned).2 := by
  unfold fetchFrom
  split
  next => exact .refl _ t
  next d _ =>
    split
    next => exact .refl _ t
    next =>
      have hgrew := Tree.makeDirectories_grew ht hw (base cache name)
      have ht' : (t.makeDirectories w.path (base cache name)).2.Sound := ht.makeDirectories
      simp only
      split
      next e t' hmake =>
        rw [hmake] at hgrew
        exact hgrew
      next t' hmake =>
        rw [hmake] at hgrew ht'
        split
        next => exact hgrew
        next => exact hgrew.trans fun q => .inl (clone_at? hr hc ht' w.path _ d.git _ q)

end

end

/-! ## Cloning that succeeds -/

section

variable {r : Remote} {t t' : Tree} {here path url revision directory : String} {p : Files.Place}
  {x : Checkout}

theorem not_isHash_temporary (n : Nat) : isHash ("git-fetch-" ++ toString n) = false := by
  rw [Bool.eq_false_iff]
  intro h
  simp only [isHash, Bool.and_eq_true, beq_iff_eq, List.all_eq_true] at h
  refine absurd (h.2 'g' ?_) (by decide)
  rw [String.toList_append]
  exact List.mem_append_left _ (by decide)

/-- The directory of a package is there after it was made, if a way goes on from it. -/
theorem leads_of_temporary {n : Nat} (hpath : path ≠ "")
    (hnames : Files.names path = Files.cleanElements path)
    (hlocate : t.locate here (path ++ "/git-fetch-" ++ toString n) = .ok p) :
    ∃ b, p = ("git-fetch-" ++ toString n) :: b ∧ t.Leads here path b := by
  have hordinary := temporary_ordinary n
  have hroute : Tree.route here (path ++ "/git-fetch-" ++ toString n) =
      Tree.route here path ++ ["git-fetch-" ++ toString n] := by
    rw [temporary_eq, Tree.route_slash hpath hordinary.plain]
  obtain ⟨-, -, -, hfollow, -⟩ := Tree.locate_eq_ok_iff.1 hlocate
  rw [hroute] at hfollow
  obtain ⟨b, hb, hlast⟩ := Tree.follow_append_eq_ok_iff.1 hfollow
  obtain ⟨hdir, -, rfl⟩ := (Tree.follow_ordinary_eq_ok_iff hordinary).1 hlast
  exact ⟨b, rfl, hpath, hnames, hb, hdir⟩

theorem at?_beside {n : Nat} {b : Files.Place} {e : String}
    (hw : Tree.Within (("git-fetch-" ++ toString n) :: b) t t') (he : isHash e = true) :
    t'.at? (e :: b) = t.at? (e :: b) := by
  refine hw.at?_eq (List.cons_ne_nil _ _) (Tree.not_suffix_of_beside ?_)
  rintro rfl
  cases (not_isHash_temporary n).symm.trans he

/-- A repository was cloned into a temporary directory, which was a new place. -/
structure Begun (t : Tree) (here path directory : String) (n : Nat) (b : Files.Place) : Prop where
  sound : t.Sound
  eq : directory = path ++ "/git-fetch-" ++ toString n
  locate : t.locate here directory = .ok (("git-fetch-" ++ toString n) :: b)
  new : t.at? (("git-fetch-" ++ toString n) :: b) = none
  leads : t.Leads here path b

section

variable {n : Nat} {b : Files.Place} (hb : Begun t here path directory n b)
  (hw : Tree.Within (("git-fetch-" ++ toString n) :: b) t t')
include hb hw

theorem Begun.kept (q : Files.Place) (hq : t.at? q = some .directory) :
    t'.at? q = some .directory := by
  rw [hw.at?_eq (List.cons_ne_nil _ _), hq]
  intro hbelow
  rw [hb.sound.below_none hb.new hbelow] at hq
  cases hq

/-- Taking the temporary directory away leaves what was there before. -/
theorem Begun.removeAll : t'.removeAll here directory = (.ok (), t) := by
  have hend : directory.endsWith "/" = false := by
    rw [hb.eq]
    exact temporary_not_endsWith path n
  rw [Tree.removeAll_outside hb.sound hb.locate hb.new hend fun _ => hw.at?_eq (List.cons_ne_nil _ _),
    hw.without_eq hb.sound hb.new]

theorem Begun.locate_later : t'.locate here directory = .ok (("git-fetch-" ++ toString n) :: b) := by
  have hend : directory.endsWith "/" = false := by
    rw [hb.eq]
    exact temporary_not_endsWith path n
  exact Tree.locate_of_outside hb.sound hb.locate hb.new hend fun _ => hw.at?_eq (List.cons_ne_nil _ _)

theorem Begun.look_iff {e : String} (he : isHash e = true) :
    (∃ entry, t'.look .stat here (Files.join path e) = .ok entry) ↔
      ∃ entry, t.look .stat here (Files.join path e) = .ok entry := by
  have hordinary := isHash_ordinary he
  have hsame := at?_beside hw he
  have hkept := hb.kept hw
  have hself : ∀ q, t.at? q = some .directory → t.at? q = some .directory := fun _ => id
  simp only [Tree.look_eq_ok_iff]
  constructor
  · rintro ⟨entry, q, hq, hentry⟩
    obtain rfl := hb.leads.locate_eq hkept hordinary hq
    refine ⟨entry, _, hb.leads.locate_congr hkept hself hordinary (fun _ hfile => ?_) hq, ?_⟩
    · rwa [hsame]
    · rwa [← hsame]
  · rintro ⟨entry, q, hq, hentry⟩
    obtain rfl := hb.leads.locate_eq hself hordinary hq
    refine ⟨entry, _, hb.leads.locate_congr hself hkept hordinary (fun _ hfile => ?_) hq, ?_⟩
    · rwa [← hsame]
    · rwa [hsame]

end

/-- What is left by a checkout that was cloned: it is kept now, and nothing else changed. -/
structure Settled (t t' : Tree) (here path url : String) (x : Checkout) : Prop where
  hash : isHash x.commit = true
  eq : x = ⟨Files.join path x.commit, x.commit, sourceOf url x.commit⟩
  there : ∃ e, t'.look .stat here x.directory = .ok e
  sound : t'.Sound
  later : ∀ but, Tree.Later but t t'
  length : t.entries.length ≤ t'.entries.length

/-- The files of a commit are put into the temporary directory, which is moved to its own place. -/
theorem keep_settled {n : Nat} {b : Files.Place} {repository : Repository} {hash : Hash}
    {y : Checkout} {t₁ t₂ : Tree} (hb : Begun t here path directory n b)
    (hcheckOut : ∀ checkOut, repository.worktree = .ok checkOut →
      Tree.Within (("git-fetch-" ++ toString n) :: b) t (checkOut hash t₁).2)
    (hunkept : ¬ ∃ e, t.look .stat here (Files.join path hash.text) = .ok e)
    (hx : x = ⟨Files.join path hash.text, hash.text, sourceOf url hash.text⟩)
    (h : keep t₁ here directory revision repository hash x = (.ok y, t₂)) :
    y = x ∧ Settled t t₂ here path url x := by
  have hordinary := isHash_ordinary hash.full
  have hself : ∀ q, t.at? q = some .directory → t.at? q = some .directory := fun _ => id
  unfold keep at h
  split at h
  next => cases h
  next checkOut hworktree =>
    have hw := hcheckOut checkOut hworktree
    revert h hw
    generalize checkOut hash t₁ = checked
    obtain ⟨done, t'⟩ := checked
    intro h hw
    cases done with
    | error message => cases h
    | ok u =>
      have hkept := hb.kept hw
      -- If the path of the checkout leads anywhere at all, nothing was there.
      have hnew : ∀ q, t'.locate here x.directory = .ok q →
          q = hash.text :: b ∧ t.Beside (("git-fetch-" ++ toString n) :: b) (hash.text :: b) := by
        rw [hx]
        intro q hq
        obtain rfl := hb.leads.locate_eq hkept hordinary hq
        refine ⟨rfl, ⟨_, _, b, rfl, rfl, ?_, hb.leads.directory⟩, hb.new, ?_⟩
        · intro heq
          cases (not_isHash_temporary n).symm.trans (heq ▸ hash.full)
        · cases hentry : t.at? (hash.text :: b) with
          | none => rfl
          | some entry =>
            refine absurd ⟨entry, Tree.look_eq_ok_iff.2 ⟨_, ?_, hentry⟩⟩ hunkept
            refine hb.leads.locate_congr hkept hself hordinary (fun _ hfile => ?_) hq
            rwa [at?_beside hw hash.full]
      simp only at h
      obtain ⟨e, hrename, hreason⟩ | ⟨hlocate, hbeside, hdir, hrename⟩ :=
        hw.rename_cases (hb.locate_later hw) hnew
      · rw [hrename] at h
        simp only [hreason, if_false] at h
        cases h
      · rw [hrename] at h
        cases h
        have hlater := hw.moved_later hb.sound hbeside
        have htarget := hw.at?_target hb.sound hbeside
        refine ⟨rfl, hx ▸ hash.full, by rw [hx], ⟨.directory, ?_⟩, hw.moved_sound hb.sound hbeside,
          hlater, hw.length_moved hb.sound hbeside⟩
        rw [hx] at hlocate ⊢
        refine Tree.look_eq_ok_iff.2 ⟨_, ?_, htarget.trans hdir⟩
        refine hb.leads.locate_congr hkept (hlater fun _ => False).directory hordinary
          (fun bytes hfile => ?_) hlocate
        cases hfile.symm.trans (htarget.trans hdir)

theorem settle_settled {n : Nat} {b : Files.Place} {repository : Repository} {t₁ t₂ : Tree}
    (hb : Begun t here path directory n b)
    (hw : Tree.Within (("git-fetch-" ++ toString n) :: b) t t₁)
    (hcheckOut : ∀ checkOut hash, repository.worktree = .ok checkOut →
      Tree.Within (("git-fetch-" ++ toString n) :: b) t (checkOut hash t₁).2)
    (h : settle t₁ here path directory url revision repository = (.ok x, t₂)) :
    Settled t t₂ here path url x := by
  unfold settle at h
  split at h
  next => cases h
  next hash _ =>
    simp only at h
    split at h
    next hfound =>
      -- Somebody has it already, so what was cloned is not needed.
      rw [hb.removeAll hw] at h
      cases h
      have hthere : ∃ e, t₁.look .stat here (Files.join path hash.text) = .ok e := by
        cases hlook : t₁.look .stat here (Files.join path hash.text) with
        | error e =>
          rw [hlook] at hfound
          cases hfound
        | ok entry => exact ⟨entry, rfl⟩
      exact ⟨hash.full, rfl, (hb.look_iff hw hash.full).1 hthere, hb.sound, fun but => .refl but t,
        Nat.le_refl _⟩
    next hunkept =>
      have hunkept : ¬ ∃ e, t.look .stat here (Files.join path hash.text) = .ok e := by
        rw [← hb.look_iff hw hash.full]
        rintro ⟨e, he⟩
        rw [he] at hunkept
        exact hunkept rfl
      obtain ⟨rfl, hsettled⟩ := keep_settled hb (fun _ => hcheckOut _ hash) hunkept rfl h
      exact hsettled

theorem clone_settled (hr : r.Orderly) (ht : t.Sound) (hpath : path ≠ "")
    (hnames : Files.names path = Files.cleanElements path)
    (h : clone r t here path url revision = (.ok x, t')) : Settled t t' here path url x := by
  obtain ⟨e, -, hclone⟩ | ⟨n, p, -, hlocate, hnone, hclone⟩ := clone_cases ht r here path url revision
  · cases hclone.symm.trans h
  · obtain ⟨b, rfl, hleads⟩ := leads_of_temporary hpath hnames hlocate
    have hw := hr.clone here url _ t _ ht hlocate hnone
    have hcheckOut := hr.checkOut here url _ t _ ht hlocate hnone
    rw [hclone] at h
    unfold cloneInto at h
    revert h hw hcheckOut
    generalize r.clone here url (path ++ "/git-fetch-" ++ toString n) t = cloned
    obtain ⟨done, t₁⟩ := cloned
    cases done with
    | error message => exact fun h => nomatch h
    | ok repository =>
      intro h hw hcheckOut
      exact settle_settled ⟨ht, rfl, hlocate, hnone, hleads⟩ hw
        (fun checkOut hash => hcheckOut repository checkOut hash rfl) h

/-- A checkout that comes out is in the cache afterwards, and what was there before still is. -/
theorem fetchFrom_orderly {cache name pinned : String} {d : Dependency} (hr : r.Orderly)
    (ht : t.Sound) (h : fetchFrom r t here cache name (some d) pinned = (.ok x, t')) :
    x.InCache t' here cache name d ∧ t'.Sound ∧ (∀ but, Tree.Later but t t') ∧
      t.entries.length ≤ t'.entries.length := by
  obtain ⟨rfl, -, hcache⟩ | ⟨hgit, hhome, t₁, hmake, hclone⟩ := fetchFrom_cases ht h
  · exact ⟨hcache, ht, fun but => .refl but _, Nat.le_refl _⟩
  · have ht₁ : (t.makeDirectories here (base cache name)).2.Sound := ht.makeDirectories
    have hlater := fun but => (Tree.makeEach_grows here (Tree.wayTo (base cache name)) t).later but
    have hlength := Tree.length_makeEach here (Tree.wayTo (base cache name)) t
    rw [← Tree.makeDirectories, hmake] at hlater hlength
    rw [hmake] at ht₁
    have hsettled := clone_settled hr ht₁ (base_clean hhome name).1 (names_base hhome name) hclone
    exact ⟨⟨hgit, hhome, hsettled.hash, hsettled.there, hsettled.eq⟩, hsettled.sound,
      fun but => (hlater but).trans (hsettled.later but), Nat.le_trans hlength hsettled.length⟩

/-- A checkout in the cache is found again by cloning its repository, which leaves nothing behind. -/
theorem InCache.fetchFrom_offered {cache name pinned : String} {d : Dependency} (hr : r.Orderly)
    (ht : t.Sound) (hx : x.InCache t here cache name d)
    (ho : r.Offers t here (base cache name) d.git (d.revisionAt pinned) x.commit) :
    Checkout.fetchFrom r t here cache name (some d) pinned = (.ok x, t) := by
  obtain ⟨directory, repository, hash, hmake, hcloned, hresolve, hcommit⟩ := ho.cloned
  have hclone : clone r t here (base cache name) d.git (d.revisionAt pinned) = (.ok x, t) := by
    obtain ⟨e, hnot, -⟩ | ⟨n, p, hmake', hlocate, hnone, hclone⟩ :=
      clone_cases ht r here (base cache name) d.git (d.revisionAt pinned)
    · cases hmake.symm.trans hnot
    · cases hmake.symm.trans hmake'
      have hpath := (base_clean hx.home name).1
      obtain ⟨b, rfl, hleads⟩ := leads_of_temporary hpath (names_base hx.home name) hlocate
      have hw := hr.clone here d.git _ t _ ht hlocate hnone
      rw [hclone]
      unfold cloneInto
      revert hw hcloned
      generalize r.clone here d.git (base cache name ++ "/git-fetch-" ++ toString n) t = cloned
      obtain ⟨done, t₁⟩ := cloned
      rintro rfl hw
      have hb : Begun t here (base cache name) _ n b := ⟨ht, rfl, hlocate, hnone, hleads⟩
      have hthere := hx.there
      rw [hx.directory_eq, ← hb.look_iff hw hx.hash] at hthere
      obtain ⟨e, he⟩ := hthere
      have heq := hx.eq
      simp only [settle, hresolve, hcommit, he, Except.toBool, if_true, hb.removeAll hw]
      rw [← heq]
  have hhash : (isHash (d.revisionAt pinned) &&
      (t.look .stat here (Files.join (base cache name) (d.revisionAt pinned))).toBool) = false := by
    rw [Bool.eq_false_iff]
    intro hkept
    obtain ⟨hhash, hlook⟩ := Bool.and_eq_true_iff.1 hkept
    refine ho.unkept ⟨hhash, ?_⟩
    cases hentry : t.look .stat here (Files.join (base cache name) (d.revisionAt pinned)) with
    | error e =>
      rw [hentry] at hlook
      cases hlook
    | ok e => exact ⟨e, rfl⟩
  simp only [Checkout.fetchFrom, Option.filter, hx.git, if_true, hx.home, String.isEmpty_iff, if_false,
    hx.makeDirectories, hhash, Bool.false_eq_true, hclone]

end

/-! ## Names, revisions and places -/

theorem isDigit_iff {c : Char} : c.isDigit = true ↔ '0' ≤ c ∧ c ≤ '9' := by
  have hdigit : c.isDigit = (decide ('0' ≤ c) && decide (c ≤ '9')) := rfl
  rw [hdigit, Bool.and_eq_true, decide_eq_true_eq, decide_eq_true_eq]

theorem isLower_iff {c : Char} : c.isLower = true ↔ 'a' ≤ c ∧ c ≤ 'z' := by
  have hlower : c.isLower = (decide ('a' ≤ c) && decide (c ≤ 'z')) := rfl
  rw [hlower, Bool.and_eq_true, decide_eq_true_eq, decide_eq_true_eq]

theorem isHash_iff (s : String) : isHash s = true ↔ s.toList.length = 40 ∧ ∀ c ∈ s.toList,
    ('0' ≤ c ∧ c ≤ '9') ∨ ('a' ≤ c ∧ c ≤ 'f') ∨ ('A' ≤ c ∧ c ≤ 'F') := by
  simp [isHash, isDigit_iff, or_assoc]

theorem packageName_ne_empty {name : String} (h : Text.trim name ≠ "") : packageName name ≠ "" := by
  intro hempty
  have hnil : (Text.trimChars name.toList).map _ = [] := String.ofList_eq_empty_iff.1 hempty
  exact h (String.ofList_eq_empty_iff.2 (List.map_eq_nil_iff.1 hnil))

theorem packageName_chars (name : String) : ∀ c ∈ (packageName name).toList,
    ('a' ≤ c ∧ c ≤ 'z') ∨ ('0' ≤ c ∧ c ≤ '9') ∨ c = '_' := by
  intro c hc
  have hsegment := packageName_segment name c hc
  simpa [Text.isSegmentChar, isLower_iff, isDigit_iff, or_assoc] using hsegment

theorem revisionAt_precedence (d : Dependency) (pinned : String) :
    (d.rev ≠ "" → d.revisionAt pinned = d.rev) ∧
    (d.rev = "" → pinned ≠ "" → d.revisionAt pinned = pinned) ∧
    (d.rev = "" → pinned = "" → d.tag ≠ "" → d.revisionAt pinned = "refs/tags/" ++ d.tag) ∧
    (d.rev = "" → pinned = "" → d.tag = "" → d.branch ≠ "" →
      d.revisionAt pinned = "refs/remotes/origin/" ++ d.branch) ∧
    (d.rev = "" → pinned = "" → d.tag = "" → d.branch = "" → d.revisionAt pinned = "HEAD") := by
  unfold Dependency.revisionAt Dependency.revision
  refine ⟨?_, ?_, ?_, ?_, ?_⟩ <;> intros <;> simp_all

theorem along_base {w : Files.Place} {cache name : String} (hcache : cache ≠ "")
    (hname : packageName name ≠ "") :
    w.along (base cache name) = packageName name :: "git" :: w.along cache := by
  have hgit : Files.Ordinary "git" := by decide
  rw [base, Files.Place.along_join (Files.join_ne_empty hcache "git") (packageName_ordinary hname),
    Files.Place.along_join hcache hgit]

/-! ## What fetching comes to -/

/-- With cloning that fails, there is a checkout exactly if its revision is a full hash and there is
something at its path. -/
theorem fetchFrom_eq_ok_iff {r : Remote} {t : Tree} {here cache name : String} {d : Dependency}
    {x : Checkout} (hr : r.Failing) (ht : t.Sound) (hcache : cache ≠ "") (hgit : d.isGit = true)
    (pinned : String) : (fetchFrom r t here cache name (some d) pinned).1 = .ok x ↔
      isHash (d.revisionAt pinned) = true ∧
      (∃ e, t.look .stat here (Files.join (base cache name) (d.revisionAt pinned)) = .ok e) ∧
      x = ⟨Files.join (base cache name) (d.revisionAt pinned), d.revisionAt pinned,
        sourceOf d.git (d.revisionAt pinned)⟩ := by
  constructor
  · intro h
    have hfetch : fetchFrom r t here cache name (some d) pinned =
        (.ok x, (fetchFrom r t here cache name (some d) pinned).2) := by rw [← h]
    obtain ⟨-, hrevision, hx⟩ := (fetchFrom_found hr ht).1 hfetch
    have hthere := hx.there
    rw [hx.directory_eq] at hthere
    rw [hrevision]
    exact ⟨hx.hash, hthere, hx.eq⟩
  · rintro ⟨hhash, hthere, rfl⟩
    rw [(inCache_of_there hgit hcache hhash hthere).fetchFrom rfl r]

/-- What fetching comes to, with cloning that fails. The revision is the one that is given, or else
the pinned one, or else a tag, a branch or the head. There is a checkout exactly if that is a full
hash with its directory in the cache, whose place is below that of the cache by a name that is safe;
then nothing was cloned. In any case nothing is left but directories down to that of the package. -/
theorem fetched_from_cache {r : Remote} (hc : r.Confined) (hr : r.Failing) {t : Tree} (ht : t.Sound)
    {w : Files.Place} (hw : ∀ e ∈ w, Files.Ordinary e) {cache name : String} (hcache : cache ≠ "")
    (hname : Text.trim name ≠ "") {d : Dependency} (hgit : d.git ≠ "") (pinned : String) :
    let revision := d.revisionAt pinned
    let directory := Files.join (Files.join (Files.join cache "git") (packageName name)) revision
    let fetched := fetchFrom r t w.path cache name (some d) pinned
    ((d.rev ≠ "" → revision = d.rev) ∧
      (d.rev = "" → pinned ≠ "" → revision = pinned) ∧
      (d.rev = "" → pinned = "" → d.tag ≠ "" → revision = "refs/tags/" ++ d.tag) ∧
      (d.rev = "" → pinned = "" → d.tag = "" → d.branch ≠ "" →
        revision = "refs/remotes/origin/" ++ d.branch) ∧
      (d.rev = "" → pinned = "" → d.tag = "" → d.branch = "" → revision = "HEAD")) ∧
    (∀ x, fetched.1 = .ok x ↔
      (revision.toList.length = 40 ∧ ∀ c ∈ revision.toList,
        ('0' ≤ c ∧ c ≤ '9') ∨ ('a' ≤ c ∧ c ≤ 'f') ∨ ('A' ≤ c ∧ c ≤ 'F')) ∧
      (∃ e, t.look .stat w.path directory = .ok e) ∧
      x = ⟨directory, revision, "git+" ++ Text.trim d.git ++ "@" ++ revision⟩) ∧
    (∀ x, fetched.1 = .ok x →
      ∀ r', fetchFrom r' t w.path cache name (some d) pinned = (.ok x, t)) ∧
    (packageName name ≠ "" ∧ ∀ c ∈ (packageName name).toList,
      ('a' ≤ c ∧ c ≤ 'z') ∨ ('0' ≤ c ∧ c ≤ '9') ∨ c = '_') ∧
    ∃ root : Files.Place, (∀ e ∈ root, Files.Ordinary e) ∧
      root.path = Files.absolute w.path cache ∧
      (∀ x, fetched.1 = .ok x → Files.absolute w.path x.directory =
        Files.Place.path (revision :: packageName name :: "git" :: root)) ∧
      Tree.GrewAt (· <:+ packageName name :: "git" :: root) t fetched.2 := by
  have hgit' : d.isGit = true := by simpa [Dependency.isGit] using hgit
  have hsegment := packageName_ne_empty hname
  have hbase := along_base (w := w) hcache hsegment
  intro revision directory fetched
  have hok (x : Checkout) : fetched.1 = .ok x ↔ _ := fetchFrom_eq_ok_iff hr ht hcache hgit' pinned
  refine ⟨revisionAt_precedence d pinned, fun x => ?_, fun x hx r' => ?_,
    ⟨hsegment, packageName_chars name⟩, w.along cache, Files.Place.along_ordinary hw cache,
    Files.Place.path_along hw cache, fun x hx => ?_, ?_⟩
  · rw [hok, isHash_iff]
    rfl
  · obtain ⟨hhash, hthere, rfl⟩ := (hok x).1 hx
    exact (inCache_of_there hgit' hcache hhash hthere).fetchFrom rfl r'
  · obtain ⟨hhash, -, rfl⟩ := (hok x).1 hx
    have hplace := Files.Place.path_along hw (Files.join (base cache name) revision)
    rw [Files.Place.along_join (base_clean hcache name).1 (isHash_ordinary hhash), hbase] at hplace
    exact hplace.symm
  · rw [← hbase]
    exact fetchFrom_grew hr hc ht hw (some d) pinned

def keptCommit : String := "0123456789abcdef0123456789abcdef01234567"

def keptFiles : Tree where
  entries :=
    [(["c"], .directory), (["git", "c"], .directory), (["my_dep", "git", "c"], .directory),
     ([keptCommit, "my_dep", "git", "c"], .directory)]

def keptDependency : Dependency := ⟨" u ", keptCommit, "", "", ""⟩

theorem kept_sound : keptFiles.Sound := Tree.sound_of_entries (by decide)

theorem kept_found : keptFiles.look .stat "/"
    (Files.join (Files.join (Files.join "/c" "git") (packageName "My Dep")) keptCommit) =
      .ok .directory := by
  decide +kernel

theorem fetched_from_cache_kept : Remote.unreachable.Confined ∧ Remote.unreachable.Failing ∧
    keptFiles.Sound ∧
    (∀ e ∈ ([] : Files.Place), Files.Ordinary e) ∧ "/c" ≠ "" ∧ Text.trim "My Dep" ≠ "" ∧
    keptDependency.git ≠ "" ∧
    ∀ r, fetchFrom r keptFiles "/" "/c" "My Dep" (some keptDependency) "" =
      (.ok ⟨"/c/git/my_dep/" ++ keptCommit, keptCommit, "git+u@" ++ keptCommit⟩, keptFiles) := by
  have hc := Remote.confined_unreachable
  have hr := Remote.failing_unreachable
  have hhere : ∀ e ∈ ([] : Files.Place), Files.Ordinary e := by simp
  have hcache : "/c" ≠ "" := by decide
  have hname : Text.trim "My Dep" ≠ "" := by decide
  have hgit : keptDependency.git ≠ "" := by decide
  obtain ⟨-, hok, hsame, -⟩ := fetched_from_cache hc hr kept_sound hhere hcache hname hgit ""
  have hhash := (isHash_iff keptCommit).1 (by decide)
  have hfound := hsame _ ((hok _).2 ⟨hhash, ⟨_, kept_found⟩, rfl⟩)
  have hx : (⟨Files.join (Files.join (Files.join "/c" "git") (packageName "My Dep")) keptCommit,
      keptCommit, "git+" ++ Text.trim " u " ++ "@" ++ keptCommit⟩ : Checkout) =
      ⟨"/c/git/my_dep/" ++ keptCommit, keptCommit, "git+u@" ++ keptCommit⟩ := by
    decide +kernel
  exact ⟨hc, hr, kept_sound, hhere, hcache, hname, hgit, fun r => hx ▸ hfound r⟩

/-- The address of a repository is not repeated as it is written. -/
theorem source_not_verbatim :
    ∃ x, (fetch keptFiles "/" "/c" "My Dep" (some keptDependency) "").1 = .ok x ∧
      x.source ≠ "git+" ++ keptDependency.git ++ "@" ++ x.commit := by
  have hcache : "/c" ≠ "" := by decide
  have hhash : isHash keptCommit = true := by decide
  have hfound : (fetchFrom .unreachable keptFiles "/" "/c" "My Dep" (some keptDependency) "").1 =
      .ok ⟨Files.join (base "/c" "My Dep") keptCommit, keptCommit, sourceOf " u " keptCommit⟩ :=
    (fetchFrom_eq_ok_iff Remote.failing_unreachable kept_sound hcache rfl "").2
      ⟨hhash, ⟨_, kept_found⟩, rfl⟩
  have hsource : sourceOf " u " keptCommit ≠ "git+" ++ " u " ++ "@" ++ keptCommit := by decide
  exact ⟨_, hfound, hsource⟩

end Checkout

end Arbor.Package
