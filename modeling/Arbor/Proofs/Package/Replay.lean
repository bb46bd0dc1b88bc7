import Arbor.Proofs.Package.Reloading
import Arbor.Proofs.Package.Walks

/-!
Loading again from what was taken down.

* `Program.steps` are the dependencies a program was loaded with. The files hold them afterwards, and
  the program has one dependency of every name among them (`Program.load_steps`).
* If all of them are followed again as they were, the same program loads again, and nothing changes
  any more (`Program.load_again`).
-/

set_option autoImplicit false

namespace Arbor.Package

open Files (Tree)

/-! ## Watching -/

namespace Loading

/-- Loading that takes down the dependencies it has gone through. -/
abbrev Watching := StateT (List LoadStep) Loading

variable {α β : Type} {r r' : Remote} {c c' : Circumstances} {log log' : List LoadStep}
  {p p' : Progress}

def watch (x : Watching α) (log : List LoadStep) (p : Progress) :
    Except LoadError (α × List LoadStep) × Progress := (x.run log).run.run p

theorem watch_bind (x : Watching α) (f : α → Watching β) (log : List LoadStep) (p : Progress) :
    watch (x >>= f) log p =
      match watch x log p with
      | (.ok (a, log'), p') => watch (f a) log' p'
      | (.error e, p') => (.error e, p') := by
  have hrun := run_bind (x.run log) (fun y => (f y.1).run y.2) p
  refine Eq.trans hrun ?_
  unfold watch
  generalize (x.run log).run.run p = result
  obtain ⟨done, p'⟩ := result
  cases done <;> rfl

theorem watch_bind_eq_ok_iff {x : Watching α} {f : α → Watching β} {b : β} :
    watch (x >>= f) log p = (.ok (b, log'), p') ↔ ∃ a log₁ p₁, watch x log p = (.ok (a, log₁), p₁) ∧
      watch (f a) log₁ p₁ = (.ok (b, log'), p') := by
  rw [watch_bind]
  generalize watch x log p = result
  obtain ⟨done, p₁⟩ := result
  constructor
  · intro h
    cases done with
    | error e => cases h
    | ok z => exact ⟨z.1, z.2, p₁, rfl, h⟩
  · rintro ⟨a, log₁, p₁, hfirst, h⟩
    cases hfirst
    exact h

theorem watch_lift (x : Loading α) (log : List LoadStep) (p : Progress) :
    watch (liftM x) log p =
      match x.run.run p with
      | (.ok a, p') => (.ok (a, log), p')
      | (.error e, p') => (.error e, p') := run_bind _ _ p

/-- What comes of watched loading is what comes of loading. -/
def Forgets (post : α → β → Prop) (x : Except LoadError (α × List LoadStep) × Progress) :
    Except LoadError β × Progress → Prop
  | (.ok b, p) => ∃ a log, post a b ∧ x = (.ok (a, log), p)
  | (.error e, p) => x = (.error e, p)

def forgetting : Link Watching Loading where
  rel post x y := ∀ log p, Forgets post (watch x log p) (y.run.run p)
  pure h := fun log _ => ⟨_, log, h, rfl⟩
  bind := by
    intro _ _ _ _ mid post x y f g hx hg log p
    have hfirst := hx log p
    rw [watch_bind, run_bind]
    revert hfirst
    generalize y.run.run p = second
    obtain ⟨done, p'⟩ := second
    cases done with
    | error e =>
      intro hfirst
      change watch x log p = _ at hfirst
      rw [hfirst]
      exact rfl
    | ok b =>
      rintro ⟨a, log', hab, hfirst⟩
      rw [hfirst]
      exact hg a b hab log' p'

theorem lift_forgets {post : α → α → Prop} (h : ∀ a, post a a) (x : Loading α) :
    forgetting.rel post (liftM x) x := by
  intro log p
  rw [watch_lift]
  generalize x.run.run p = result
  obtain ⟨done, p'⟩ := result
  cases done with
  | error e => exact rfl
  | ok a => exact ⟨a, log, h a, rfl⟩

theorem watched_linked (r : Remote) (c : Circumstances) :
    (walk r c).watched.Linked forgetting (walk r c) Eq where
  manifest := by
    rintro m _ rfl
    rfl
  fail e := lift_forgets (fun _ => trivial) _
  isDone path := lift_forgets (fun _ => rfl) _
  through := by
    rintro m _ rfl
    refine List.forall₂_same.2 fun d _ go go' hgo => ?_
    refine Walk.through_linked (fun x y => x.found = y) ?_ ?_ ?_
    · have hlift : forgetting.rel Eq (liftM ((walk r c).follow m d)) ((walk r c).follow m d) :=
        lift_forgets (fun _ => rfl) _
      have hstep : ∀ a b, a = b →
          forgetting.rel (fun (x : LoadStep) y => x.found = y) (pure ⟨m, d, a⟩) (pure b) :=
        fun _ _ hab => forgetting.pure hab
      have hpure := forgetting.bind hlift hstep
      rwa [bind_pure] at hpure
    · rintro x _ rfl
      exact hgo _ _ rfl
    · rintro x _ rfl
      have hlift : forgetting.Both (liftM ((walk r c).record x.found)) ((walk r c).record x.found) :=
        lift_forgets (fun _ => trivial) _
      have hnote : forgetting.Both (do
          liftM ((walk r c).record x.found)
          modify (x :: ·)) (do (walk r c).record x.found; pure ()) :=
        forgetting.bind hlift fun _ _ _ log p => ⟨(), x :: log, trivial, rfl⟩
      rwa [bind_pure_unit] at hnote
  take m q := lift_forgets (fun _ => trivial) _
  finish path := lift_forgets (fun _ => trivial) _

end Loading

/-! ## What was taken down -/

/-- What has been loaded so far, with other files. -/
def Progress.on (p : Progress) (files : Tree) : Progress := { p with files := files }

def Progress.record (p : Progress) (r : Resolved) : Progress :=
  if p.dependencies.any (·.name == r.name) then p
  else { p with dependencies := p.dependencies ++ [r] }

section

variable (p : Progress) (r : Resolved)

@[simp] theorem Progress.record_files : (p.record r).files = p.files := by
  unfold record
  split <;> rfl

theorem Progress.record_on (files : Tree) : (p.on files).record r = (p.record r).on files := by
  unfold record on
  dsimp only
  split <;> rfl

theorem Progress.mem_record {p : Progress} {r d : Resolved} (h : d ∈ (p.record r).dependencies) :
    d ∈ p.dependencies ∨ d = r := by
  unfold record at h
  split at h
  · exact .inl h
  · simpa using h

theorem Progress.names_record {name : String}
    (h : name ∈ p.dependencies.map (·.name) ∨ name = r.name) :
    name ∈ (p.record r).dependencies.map (·.name) := by
  unfold record
  split
  next hany =>
    obtain hmem | rfl := h
    · exact hmem
    · obtain ⟨d, hd, hname⟩ := List.any_eq_true.1 hany
      exact List.mem_map.2 ⟨d, hd, beq_iff_eq.1 hname⟩
  next =>
    rw [List.map_append, List.mem_append]
    exact h.imp id fun heq => by simp [heq]

end

/-- The dependencies that were taken down are those that were loaded, and the files hold them. -/
structure Progress.Logs (p : Progress) (c : Circumstances) (log : List LoadStep) : Prop where
  sound : p.files.Sound
  recorded : ∀ d ∈ p.dependencies, ∃ x ∈ log, x.found.1 = d
  names : ∀ x ∈ log, x.found.1.name ∈ p.dependencies.map (·.name)
  holds : ∀ x ∈ log, x.Holds c p.files

theorem Progress.Logs.advance {p p' : Progress} {c : Circumstances} {log : List LoadStep}
    (habs : Files.isAbsolute c.here = true) (h : p.Logs c log) (hadvances : p.Advances p')
    (hsame : p'.dependencies = p.dependencies) : p'.Logs c log where
  sound := hadvances.sound
  recorded := hsame ▸ h.recorded
  names := hsame ▸ h.names
  holds := fun x hx => (h.holds x hx).later habs (hadvances.later _)

theorem Progress.Logs.record {p : Progress} {c : Circumstances} {log : List LoadStep} {x : LoadStep}
    (h : p.Logs c log) (hx : x.Holds c p.files) : (p.record x.found.1).Logs c (x :: log) where
  sound := by
    rw [record_files]
    exact h.sound
  recorded := by
    intro d hd
    obtain hd | rfl := mem_record hd
    · obtain ⟨y, hy, hfound⟩ := h.recorded d hd
      exact ⟨y, List.mem_cons_of_mem _ hy, hfound⟩
    · exact ⟨x, List.mem_cons_self, rfl⟩
  names := List.forall_mem_cons.2 ⟨names_record _ _ (.inr rfl),
    fun y hy => names_record _ _ (.inl (h.names y hy))⟩
  holds := by
    rw [record_files]
    exact List.forall_mem_cons.2 ⟨hx, h.holds⟩

namespace Loading

variable {α β : Type} {r r' : Remote} {c c' : Circumstances} {log log' : List LoadStep}
  {p p' : Progress} {F : Tree}

/-! ## Doing the same again -/

/-- The dependency is followed on other files as it was. -/
def Again (r : Remote) (c : Circumstances) (F : Tree) (x : LoadStep) : Prop :=
  ∀ p : Progress, p.files = F →
    (follow Manifest.load r c x.package x.dependency).run.run p = (.ok x.found, p)

/-- Without a repository to clone, a revision that is not a commit cannot be followed. -/
theorem not_again {x : LoadStep} (hr : r.Failing) (hgit : x.dependency.2.isGit = true)
    (hhash : isHash (x.dependency.2.revisionAt (c.pinned x.dependency.1)) = false) :
    ¬ Again r c F x := by
  intro hagain
  have hfollow := hagain (.start F) rfl
  unfold follow at hfollow
  split at hfollow
  next => cases hfollow
  next =>
    have hresolve : ∃ e p', (resolve r c x.package x.dependency.1 x.dependency.2).run.run (.start F) =
        (.error e, p') := by
      unfold resolve
      rw [if_pos hgit]
      cases c.cache with
      | none => exact ⟨_, _, rfl⟩
      | some cache =>
        obtain ⟨e, he⟩ := Checkout.fetchFrom_of_not_isHash hr F hhash c.here cache x.dependency.1
        simp only
        rw [run_get_bind]
        cases hfetch : Checkout.fetchFrom r (Progress.start F).files c.here cache x.dependency.1
            (some x.dependency.2) (c.pinned x.dependency.1) with
        | mk result files =>
          obtain rfl : result = .error e := (congrArg Prod.fst hfetch).symm.trans he
          unfold Circumstances.pinned at hfetch
          simp only [hfetch]
          exact ⟨_, _, rfl⟩
    obtain ⟨e, p', hresolve⟩ := hresolve
    rw [run_bind, hresolve] at hfollow
    cases hfollow

/-- What was loaded before is kept by the first step, and the second one does the same on files that
kept what was there, if the dependencies taken down are followed as they were. -/
def Replays (c : Circumstances) (r' : Remote) (c' : Circumstances) (F : Tree) (post : α → β → Prop)
    (x : Watching α) (y : Loading β) : Prop :=
  ∀ log p a log' p', p.Logs c log → watch x log p = (.ok (a, log'), p') →
    p'.Logs c log' ∧ p.Advances p' ∧ log ⊆ log' ∧ ∃ b, post a b ∧
      (Kept p'.files F → (∀ x ∈ log', Again r' c' F x) → y.run.run (p.on F) = (.ok b, p'.on F))

theorem Replays.bind {γ δ : Type} {mid : α → β → Prop} {post : γ → δ → Prop} {x : Watching α}
    {y : Loading β} {f : α → Watching γ} {g : β → Loading δ} (hx : Replays c r' c' F mid x y)
    (hg : ∀ a b, mid a b → Replays c r' c' F post (f a) (g b)) :
    Replays c r' c' F post (x >>= f) (y >>= g) := by
  intro log p d log₂ p₂ hlog h
  obtain ⟨a, log₁, p₁, hfirst, h⟩ := watch_bind_eq_ok_iff.1 h
  obtain ⟨hlog₁, hadvances₁, hsub₁, b, hab, hy⟩ := hx log p a log₁ p₁ hlog hfirst
  obtain ⟨hlog₂, hadvances₂, hsub₂, b', hpost, hk⟩ := hg a b hab log₁ p₁ d log₂ p₂ hlog₁ h
  refine ⟨hlog₂, hadvances₁.trans hadvances₂, List.Subset.trans hsub₁ hsub₂, b', hpost, ?_⟩
  intro hkept hagain
  rw [run_bind, hy ((hadvances₂.later _).trans hkept) fun x hx => hagain x (hsub₂ hx)]
  exact hk hkept hagain

def replaying (c : Circumstances) (r' : Remote) (c' : Circumstances) (F : Tree) :
    Link Watching Loading where
  rel := Replays c r' c' F
  pure h := by
    intro log p a log' p' hlog hwatch
    cases hwatch
    exact ⟨hlog, .refl hlog.sound, List.Subset.refl _, _, h, fun _ _ => rfl⟩
  bind := Replays.bind

/-- A step that only adds to what was loaded, and does not depend on anything else. -/
theorem lift_replays {post : α → β → Prop} {x : Loading α} {y : Loading β}
    (h : ∀ p a p', x.run.run p = (.ok a, p') →
      p'.files = p.files ∧ p'.dependencies = p.dependencies ∧ ∃ b, post a b ∧
        (Kept p.files F → y.run.run (p.on F) = (.ok b, p'.on F)))
    (habs : Files.isAbsolute c.here = true) : Replays c r' c' F post (liftM x) y := by
  intro log p a log' p' hlog hwatch
  rw [watch_lift] at hwatch
  cases hx : x.run.run p with
  | mk done p₁ =>
    rw [hx] at hwatch
    cases done with
    | error e => cases hwatch
    | ok a₁ =>
      cases hwatch
      obtain ⟨hfiles, hdependencies, b, hpost, hy⟩ := h p a p' hx
      have hadvances : p.Advances p' := by
        refine ⟨hfiles ▸ hlog.sound, fun but => ?_, ?_⟩
        · rw [hfiles]
          exact .refl but _
        · rw [hfiles]
      refine ⟨hlog.advance habs hadvances hdependencies, hadvances, List.Subset.refl _, b, hpost, ?_⟩
      intro hkept _
      rw [hfiles] at hkept
      exact hy hkept

theorem run_check_bind_eq_ok_iff {ε : Type} {error : ε → LoadError} {x : Except ε α}
    {g : α → Loading β} {b : β} : (check error x >>= g).run.run p = (.ok b, p') ↔
      ∃ a, x = .ok a ∧ (g a).run.run p = (.ok b, p') := by
  rw [run_bind, run_check]
  cases x with
  | error e =>
    constructor
    · exact nofun
    · rintro ⟨a, ha, -⟩
      cases ha
  | ok a => simp [Except.mapError]

/-- A module is taken if there is none of its name yet and its file can be read. -/
theorem takeModule_eq_ok_iff {m : Manifest} {name file : String} :
    (takeModule c m name file).run.run p = (.ok (), p') ↔
      p.modules.find? (·.name == name) = none ∧ ∃ format bytes tree,
        Format.ofPath (m.resolve file) = .ok format ∧
        p.files.read c.here (m.resolve file) = .ok bytes ∧ format.readModule bytes = .ok tree ∧
        p' = { p with modules := p.modules ++ [⟨name, m.name, m.resolve file, tree⟩] } := by
  unfold takeModule
  rw [run_get_bind]
  cases p.modules.find? (·.name == name) with
  | some other =>
    constructor
    · exact nofun
    · rintro ⟨hnone, -⟩
      cases hnone
  | none =>
    simp only [run_check_bind_eq_ok_iff, true_and]
    constructor
    · rintro ⟨format, hformat, bytes, hbytes, tree, htree, hset⟩
      cases hset
      exact ⟨format, bytes, tree, hformat, hbytes, htree, rfl⟩
    · rintro ⟨format, bytes, tree, hformat, hbytes, htree, rfl⟩
      exact ⟨format, hformat, bytes, hbytes, tree, htree, rfl⟩

theorem takeModule_again {m : Manifest} {name file : String} (hhere : c'.here = c.here)
    (h : (takeModule c m name file).run.run p = (.ok (), p')) :
    p'.files = p.files ∧ p'.dependencies = p.dependencies ∧
      (Kept p.files F → (takeModule c' m name file).run.run (p.on F) = (.ok (), p'.on F)) := by
  obtain ⟨hnone, format, bytes, tree, hformat, hread, htree, rfl⟩ := takeModule_eq_ok_iff.1 h
  refine ⟨rfl, rfl, fun hk => takeModule_eq_ok_iff.2 ⟨hnone, format, bytes, tree, hformat, ?_, htree,
    rfl⟩⟩
  rw [hhere]
  exact read_again hk hformat hread

theorem watch_follow_eq_ok_iff {m : Manifest} {d : String × Dependency} {x : LoadStep} :
    watch ((walk r c).watched.follow m d) log p = (.ok (x, log'), p') ↔
      (follow Manifest.load r c m d).run.run p = (.ok x.found, p') ∧ x = ⟨m, d, x.found⟩ ∧
        log' = log := by
  have hfollow : (walk r c).watched.follow m d =
      (liftM (follow Manifest.load r c m d) : Watching (Resolved × Manifest)) >>= fun found =>
        pure (Step.mk m d found) := rfl
  rw [hfollow, watch_bind, watch_lift]
  generalize (follow Manifest.load r c m d).run.run p = result
  obtain ⟨done, p₁⟩ := result
  cases done with
  | error e =>
    constructor
    · exact nofun
    · rintro ⟨h, -⟩
      cases h
  | ok found =>
    constructor
    · intro h
      cases h
      exact ⟨rfl, rfl, rfl⟩
    · rintro ⟨h, hx, rfl⟩
      cases h
      rw [hx]
      rfl

theorem watch_record (x : LoadStep) (log : List LoadStep) (p : Progress) :
    watch ((walk r c).watched.record x) log p = (.ok ((), x :: log), p.record x.found.1) := rfl

/-- One dependency, whatever is done with the package it leads to. -/
theorem through_replays {go : Manifest → Watching Unit} {go' : Manifest → Loading Unit} {m : Manifest}
    {d : String × Dependency} (hr : r.Orderly) (habs : Files.isAbsolute c.here = true)
    (hm : m.path ≠ "")
    (hgo : ∀ child, child.path ≠ "" →
      Replays c r' c' F (fun _ _ => True) (go child) (go' child)) :
    Replays c r' c' F (fun _ _ => True) ((walk r c).watched.through go m d)
      ((walk r' c').through go' m d) := by
  intro log p u log' p' hlog hwatch
  unfold Walk.through at hwatch ⊢
  obtain ⟨x, log₁, p₁, hfirst, hrest⟩ := watch_bind_eq_ok_iff.1 hwatch
  obtain ⟨hfollow, hx, rfl⟩ := watch_follow_eq_ok_iff.1 hfirst
  obtain ⟨⟨⟩, log₂, p₂, hwalked, hrecord⟩ := watch_bind_eq_ok_iff.1 hrest
  rw [watch_record] at hrecord
  cases hrecord
  obtain ⟨hsame, hadvances₁, hholds⟩ := follow_holds hr hm hlog.sound hfollow
  rw [← hx] at hholds
  have hlog₁ : p₁.Logs c log₁ := hlog.advance habs hadvances₁ (by rw [hsame])
  have hchild : x.found.2.path ≠ "" := (Manifest.load_stands habs hholds.child).path_ne_empty
  obtain ⟨hlog₂, hadvances₂, hsub, _, _, hagain₂⟩ :=
    hgo x.found.2 hchild log₁ p₁ () log₂ p₂ hlog₁ hwalked
  have hholds₂ : LoadStep.Holds x c p₂.files := hholds.later habs (hadvances₂.later _)
  have hadvances₃ : p₂.Advances (p₂.record x.found.1) := by
    have hrefl := Progress.Advances.refl hlog₂.sound
    exact ⟨by simpa using hrefl.sound, by simpa using hrefl.later, by simp⟩
  refine ⟨hlog₂.record hholds₂, (hadvances₁.trans hadvances₂).trans hadvances₃,
    List.subset_cons_of_subset _ hsub, (), trivial, fun hkept hagain => ?_⟩
  rw [Progress.record_files] at hkept
  have hx' : (follow Manifest.load r' c' m d).run.run (p.on F) = (.ok x.found, p.on F) := by
    have hrun := hagain x List.mem_cons_self (p.on F) rfl
    rw [hx] at hrun
    exact hrun
  have hon : p₁.on F = p.on F := by
    rw [hsame]
    rfl
  have hgo' := hagain₂ hkept fun y hy => hagain y (List.mem_cons_of_mem _ hy)
  rw [hon] at hgo'
  change (follow Manifest.load r' c' m d >>= fun y => go' y.2 >>= fun _ => recordDependency y.1).run.run
    (p.on F) = _
  rw [run_bind, hx']
  simp only
  rw [run_bind, hgo', ← Progress.record_on]
  rfl

/-- Where the dependencies are followed as they were, loading goes the same way again. -/
theorem walk_replays (hr : r.Orderly) (habs : Files.isAbsolute c.here = true)
    (hhere : c'.here = c.here) :
    (walk r c).watched.Linked (replaying c r' c' F) (walk r' c') fun a b => a = b ∧ a.path ≠ "" where
  manifest := by
    rintro m _ ⟨rfl, -⟩
    rfl
  fail e := lift_replays (fun _ _ _ h => nomatch h) habs
  isDone path := by
    refine lift_replays (fun p a p' h => ?_) habs
    cases h
    exact ⟨rfl, rfl, _, rfl, fun _ => rfl⟩
  through := by
    rintro m _ ⟨rfl, hm⟩
    refine List.forall₂_same.2 fun d _ go go' hgo => ?_
    exact through_replays hr habs hm fun child hchild => hgo _ _ ⟨rfl, hchild⟩
  take m q := lift_replays (fun p u p' h => by
    obtain ⟨hfiles, hdependencies, hagain⟩ := takeModule_again hhere h
    exact ⟨hfiles, hdependencies, (), trivial, hagain⟩) habs
  finish path := by
    refine lift_replays (fun p u p' h => ?_) habs
    cases h
    exact ⟨rfl, rfl, (), trivial, fun _ => rfl⟩

end Loading

/-! ## Programs -/

namespace Program

/-- The dependencies gone through when a program is loaded, each after those of its package. -/
def steps (c : Circumstances) (t : Tree) (m : Manifest) (r : Remote) (more : Nat) : List LoadStep :=
  match Loading.watch ((Loading.walk r c).watched.go (t.entries.length + 2 + more) [] m) []
      (.start t) with
  | (.ok (_, log), _) => log
  | (.error _, _) => []

variable {c c' : Circumstances} {r r' : Remote} {t files F : Tree} {m : Manifest} {p : Program}
  {more more' : Nat}

theorem load_eq_ok_iff : load c t (some m) r more = (.ok p, files) ↔
    ∃ q, ((Loading.walk r c).go (t.entries.length + 2 + more) [] m).run.run (.start t) =
      (.ok (), q) ∧ p = ⟨m, q.modules, q.dependencies⟩ ∧ files = q.files := by
  have hload : load c t (some m) r more = collect m (((Loading.walk r c).go
      (t.entries.length + 2 + more) [] m).run.run (.start t)) := rfl
  rw [hload]
  generalize ((Loading.walk r c).go _ [] m).run.run (.start t) = result
  obtain ⟨done, q⟩ := result
  cases done with
  | error e =>
    constructor
    · exact nofun
    · rintro ⟨q', hq, -⟩
      cases hq
  | ok u =>
    constructor
    · intro h
      cases h
      exact ⟨q, rfl, rfl, rfl⟩
    · rintro ⟨q', hq, rfl, rfl⟩
      cases hq
      rfl

theorem watch_forgets (r : Remote) (c : Circumstances) (t : Tree) (m : Manifest) (more : Nat) :
    Loading.Forgets (fun _ _ => True)
      (Loading.watch ((Loading.walk r c).watched.go (t.entries.length + 2 + more) [] m) [] (.start t))
      (((Loading.walk r c).go (t.entries.length + 2 + more) [] m).run.run (.start t)) :=
  (Loading.watched_linked r c).go (.inl rfl) (t.entries.length + 2 + more) [] (rfl : m = m) []
    (.start t)

theorem steps_eq {log : List LoadStep} {q : Progress}
    (h : Loading.watch ((Loading.walk r c).watched.go (t.entries.length + 2 + more) [] m) []
      (.start t) = (.ok ((), log), q)) : steps c t m r more = log := by
  rw [steps, h]

theorem watch_eq_steps (h : load c t (some m) r more = (.ok p, files)) :
    ∃ q, Loading.watch ((Loading.walk r c).watched.go (t.entries.length + 2 + more) [] m) []
      (.start t) = (.ok ((), steps c t m r more), q) ∧ p = ⟨m, q.modules, q.dependencies⟩ ∧
        files = q.files := by
  obtain ⟨q, hrun, hp, hfiles⟩ := load_eq_ok_iff.1 h
  have hforgets := watch_forgets r c t m more
  rw [hrun] at hforgets
  obtain ⟨⟨⟩, log, -, hwatch⟩ := hforgets
  exact ⟨q, steps_eq hwatch ▸ hwatch, hp, hfiles⟩

/-- What a watched run shows is what is loaded. -/
theorem load_of_watch {log : List LoadStep} {q : Progress}
    (h : Loading.watch ((Loading.walk r c).watched.go (t.entries.length + 2 + more) [] m) []
      (.start t) = (.ok ((), log), q)) :
    load c t (some m) r more = (.ok ⟨m, q.modules, q.dependencies⟩, q.files) ∧
      steps c t m r more = log := by
  refine ⟨load_eq_ok_iff.2 ⟨q, ?_, rfl, rfl⟩, steps_eq h⟩
  have hforgets := watch_forgets r c t m more
  rw [h] at hforgets
  revert hforgets
  generalize ((Loading.walk r c).go _ [] m).run.run (.start t) = result
  obtain ⟨done, q'⟩ := result
  cases done with
  | error e => exact fun hforgets => nomatch hforgets
  | ok u =>
    rintro ⟨a, log', -, hlog⟩
    cases hlog
    rfl

section

variable (hr : r.Orderly) (ht : t.Sound) (habs : Files.isAbsolute c.here = true) (hm : m.path ≠ "")
  (h : load c t (some m) r more = (.ok p, files))
include hr ht habs hm h

/-- What was there is still there when a program was loaded, the dependencies gone through are those
it has, and the files hold them. -/
theorem load_steps : files.Sound ∧ (∀ but, Tree.Later but t files) ∧
    t.entries.length ≤ files.entries.length ∧
    (∀ d ∈ p.dependencies, ∃ x ∈ steps c t m r more, x.found.1 = d) ∧
    (∀ x ∈ steps c t m r more, x.found.1.name ∈ p.dependencies.map (·.name)) ∧
    ∀ x ∈ steps c t m r more, x.Holds c files := by
  obtain ⟨q, hwatch, rfl, rfl⟩ := watch_eq_steps h
  have hstart : (Progress.start t).Logs c [] := ⟨ht, nofun, nofun, nofun⟩
  have hlinked : (Loading.walk r c).watched.Linked (Loading.replaying c r c t) (Loading.walk r c)
      fun a b => a = b ∧ a.path ≠ "" := Loading.walk_replays hr habs rfl
  have hgo := hlinked.go (.inl rfl) (t.entries.length + 2 + more) []
    (⟨rfl, hm⟩ : m = m ∧ m.path ≠ "")
  obtain ⟨hlog, hadvances, -, -⟩ := hgo [] (.start t) () _ q hstart hwatch
  exact ⟨hlog.sound, hadvances.later, hadvances.length, hlog.recorded, hlog.names, hlog.holds⟩

/-- The program loads again where its dependencies are followed as they were, and nothing changes. -/
theorem load_again (hhere : c'.here = c.here) (hk : Kept files F)
    (hmore : t.entries.length + more ≤ F.entries.length + more')
    (hagain : ∀ x ∈ steps c t m r more, Loading.Again r' c' F x) :
    load c' F (some m) r' more' = (.ok p, F) := by
  obtain ⟨q, hwatch, rfl, rfl⟩ := watch_eq_steps h
  have hstart : (Progress.start t).Logs c [] := ⟨ht, nofun, nofun, nofun⟩
  obtain ⟨extra, hextra⟩ := Nat.exists_eq_add_of_le hmore
  have hfuel : t.entries.length + 2 + more + extra = F.entries.length + 2 + more' := by omega
  have hlinked : (Loading.walk r c).watched.Linked (Loading.replaying c r' c' F)
      (Loading.walk r' c') fun a b => a = b ∧ a.path ≠ "" := Loading.walk_replays hr habs hhere
  -- It did not fail before, so it does not matter how it would go on where it did.
  have hdeep : extra = 0 ∨ ∀ y, (Loading.replaying c r' c' F).Both
      ((Loading.walk r c).watched.fail .tooDeep) y := .inr fun _ _ _ _ _ _ _ hfail => nomatch hfail
  have hgo := hlinked.go hdeep (t.entries.length + 2 + more) [] (⟨rfl, hm⟩ : m = m ∧ m.path ≠ "")
  obtain ⟨-, -, -, _, _, hreplay⟩ := hgo [] (.start t) () _ q hstart hwatch
  have hrun := hreplay hk hagain
  rw [hfuel] at hrun
  exact load_eq_ok_iff.2 ⟨q.on F, hrun, rfl, rfl⟩

end

end Program

end Arbor.Package
