import Arbor.Proofs.Package.Programs

/-!
What loading does to the files where nothing can be cloned.

Everything but fetching a repository only reads files, and a repository that is found leaves them as
they are. So there is one way for loading to change anything: it fails at a repository, and
directories down to the one where that is kept were made on the way (`Program.load_left`).
-/

set_option autoImplicit false

namespace Arbor.Package

open Files (Tree)

/-- Directories may have been made down to the one of a repository that is reached. -/
def Circumstances.Attempted (c : Circumstances) (r : Remote) (t : Tree) (root : Manifest)
    (w : Files.Place) (files : Tree) : Prop :=
  ∃ a name d cache, (c.survey r t).Reaches root a ∧ (name, d) ∈ a.dependencies ∧ d.isGit = true ∧
    c.cache = some cache ∧ Tree.GrewAt (· <:+ w.along (Checkout.base cache name)) t files

namespace Loading

variable {α β : Type} {c : Circumstances} {r : Remote} {t : Tree} {left : Tree → Prop}
  {mid post : α → Prop}

/-- The step does not change the files, and what it gives is as told; but where it fails, the files
may be left otherwise. -/
def Spares (t : Tree) (left : Tree → Prop) (post : α → Prop) (x : Loading α) : Prop :=
  ∀ p : Progress, p.files = t →
    match x.run.run p with
    | (.ok a, p') => p'.files = t ∧ post a
    | (.error _, p') => p'.files = t ∨ left p'.files

theorem Spares.bind {next : β → Prop} {x : Loading α} {g : α → Loading β}
    (hx : Spares t left mid x) (hg : ∀ a, mid a → Spares t left next (g a)) :
    Spares t left next (x >>= g) := by
  intro p hp
  have hfirst := hx p hp
  rw [run_bind]
  revert hfirst
  cases x.run.run p with
  | mk done p' =>
    cases done with
    | error e => exact id
    | ok a =>
      rintro ⟨hfiles, ha⟩
      exact hg a ha p' hfiles

theorem Spares.imp {x : Loading α} (hx : Spares t left mid x) (h : ∀ a, mid a → post a) :
    Spares t left post x := by
  intro p hp
  have hrun := hx p hp
  revert hrun
  cases x.run.run p with
  | mk done p' =>
    cases done with
    | error e => exact id
    | ok a => exact fun ⟨hfiles, ha⟩ => ⟨hfiles, h a ha⟩

theorem Spares.pure {a : α} (h : post a) : Spares t left post (pure a) := fun _ hp => ⟨hp, h⟩

theorem Spares.throw (e : LoadError) : Spares t left post (throw e) := fun _ hp => .inl hp

theorem Spares.throw_bind {e : LoadError} {g : α → Loading β} {next : β → Prop} :
    Spares t left next ((MonadExcept.throw e : Loading α) >>= g) := fun _ hp => .inl hp

theorem Spares.get_bind {g : Progress → Loading β} {next : β → Prop}
    (h : ∀ p, p.files = t → Spares t left next (g p)) : Spares t left next (get >>= g) :=
  fun p hp => h p hp p hp

theorem Spares.check_bind {ε : Type} {error : ε → LoadError} {x : Except ε α}
    {g : α → Loading β} {next : β → Prop} (h : ∀ a, x = .ok a → Spares t left next (g a)) :
    Spares t left next (check error x >>= g) := by
  cases x with
  | error e => exact .throw_bind
  | ok a => exact h a rfl

theorem Spares.set {p : Progress} (h : p.files = t) :
    Spares t left (fun _ => True) (set p : Loading Unit) := fun _ _ => ⟨h, trivial⟩

theorem Spares.modify {f : Progress → Progress} (hf : ∀ p, (f p).files = p.files) :
    Spares t left (fun _ => True) (modify f : Loading Unit) := fun p hp => ⟨(hf p).trans hp, trivial⟩

/-- What spares the files, whatever it is compared with. -/
def sparing (t : Tree) (left : Tree → Prop) : Link Loading Loading where
  rel post x _ := Spares t left (fun a => ∃ b, post a b) x
  pure h := fun _ hp => ⟨hp, _, h⟩
  bind hx hg := Spares.bind hx fun a ⟨b, hab⟩ => hg a b hab

theorem sparing_both {x y : Loading Unit} (h : Spares t left (fun _ => True) x) :
    (sparing t left).Both x y := h.imp fun _ _ => ⟨(), trivial⟩

/-- Only looking for a repository can change the files. -/
theorem resolve_files (hr : r.Failing) (hc : r.Confined) {w : Files.Place}
    (hw : ∀ e ∈ w, Files.Ordinary e) (hhere : c.here = w.path) (m : Manifest) (name : String)
    (d : Dependency) (p : Progress) (hp : p.files.Sound) :
    ((resolve r c m name d).run.run p).2.files = p.files ∨
      d.isGit = true ∧ ∃ cache, c.cache = some cache ∧
        Tree.GrewAt (· <:+ w.along (Checkout.base cache name)) p.files
          ((resolve r c m name d).run.run p).2.files := by
  unfold resolve
  split
  next hgit =>
    cases hcache : c.cache with
    | none => exact .inl rfl
    | some cache =>
      have hgrew : Tree.GrewAt (· <:+ w.along (Checkout.base cache name)) p.files
          (Checkout.fetchFrom r p.files w.path cache name (some d)
            (((c.lock.bind (·.find? name)).map (·.commit)).getD "")).2 :=
        Checkout.fetchFrom_grew hr hc hp hw (some d) _
      rw [← hhere] at hgrew
      simp only
      rw [run_get_bind]
      revert hgrew
      generalize Checkout.fetchFrom r p.files c.here cache name (some d) _ = x
      obtain ⟨done, files⟩ := x
      intro hgrew
      have hfiles : ((do
          set { p with files := files }
          let found ← check (.checkout name) done
          return ⟨name, found.directory, found.source, found.commit⟩ :
            Loading Resolved).run.run p).2.files = files := by
        cases done <;> rfl
      rw [hfiles]
      exact .inr ⟨hgit, cache, rfl, hgrew⟩
  next hgit =>
    refine .inl ?_
    simp only
    rw [run_get_bind]
    cases p.files.look .stat c.here (m.resolve d.path) with
    | error e => rfl
    | ok entry => cases entry <;> rfl

section

variable (hr : r.Failing) (hc : r.Confined) {w : Files.Place} (hw : ∀ e ∈ w, Files.Ordinary e)
  (hhere : c.here = w.path) (ht : t.Sound) {root m : Manifest} (hm : (c.survey r t).Reaches root m)
include hr hc hw hhere ht hm

/-- Finding a dependency only changes the files if a repository is not found. -/
theorem resolve_spares {name : String} {d : Dependency} (hd : (name, d) ∈ m.dependencies) :
    Spares t (c.Attempted r t root w) (fun x => c.find r t m name d = .ok x)
      (resolve r c m name d) := by
  intro p hp
  obtain ⟨files, done, modules, dependencies⟩ := p
  obtain rfl : files = t := hp
  have hfiles := resolve_files hr hc hw hhere m name d ⟨files, done, modules, dependencies⟩ ht
  have htracks := resolve_tracks (c := c) hr ht m name d ⟨done, modules, dependencies⟩
  change Comes files Eq ((resolve r c m name d).run.run ⟨files, done, modules, dependencies⟩)
    ((c.find r files m name d).map (·, _)) at htracks
  revert htracks hfiles
  generalize (resolve r c m name d).run.run ⟨files, done, modules, dependencies⟩ = result
  obtain ⟨result, p'⟩ := result
  cases c.find r files m name d with
  | ok x =>
    rintro - ⟨_, rfl, hrun⟩
    cases hrun
    exact ⟨rfl, rfl⟩
  | error e =>
    rintro hfiles (rfl : result = .error e)
    refine hfiles.imp id ?_
    rintro ⟨hgit, cache, hcache, hgrew⟩
    exact ⟨m, name, d, cache, hm, hd, hgit, hcache, hgrew⟩

/-- A dependency that is followed leads to a package that is reached. -/
theorem follow_spares {p : String × Dependency} (hd : p ∈ m.dependencies) :
    Spares t (c.Attempted r t root w) (fun x => (c.survey r t).Reaches root x.2)
      (follow Manifest.load r c m p) := by
  unfold follow
  split
  next => exact .throw_bind
  next =>
    refine (resolve_spares hr hc hw hhere ht hm hd).bind fun found hfound => .get_bind fun q hq => ?_
    rw [hq]
    refine .check_bind fun child hchild => .pure ?_
    exact hm.tail ⟨p, hd, found, Circumstances.edge_eq_ok_iff.2 ⟨hfound, hchild⟩⟩

end

theorem takeModule_spares (m : Manifest) (name file : String) :
    Spares t left (fun _ => True) (takeModule c m name file) := by
  unfold takeModule
  refine .get_bind fun p hp => ?_
  split
  next => exact .throw _
  next =>
    refine Spares.check_bind ?_
    intro format _
    refine Spares.check_bind ?_
    intro bytes _
    refine Spares.check_bind ?_
    intro tree _
    exact Spares.set hp

theorem recordDependency_spares (x : Resolved) :
    Spares t left (fun _ => True) (recordDependency x) := by
  refine .modify fun p => ?_
  split <;> rfl

/-- Whatever way loading goes, it only changes the files where it fails at a repository. -/
theorem walk_spares (hr : r.Failing) (hc : r.Confined) {w : Files.Place}
    (hw : ∀ e ∈ w, Files.Ordinary e) (hhere : c.here = w.path) (ht : t.Sound) (root : Manifest) :
    (walk r c).Linked (sparing t (c.Attempted r t root w)) (walk r c)
      fun a b => a = b ∧ (c.survey r t).Reaches root a where
  manifest := by
    rintro a _ ⟨rfl, -⟩
    rfl
  fail e := sparing_both (.throw e)
  isDone path := fun _ hp => ⟨hp, _, rfl⟩
  through := by
    rintro m _ ⟨rfl, hm⟩
    refine List.forall₂_same.2 fun p hp go go' hgo => ?_
    refine Walk.through_linked (fun x y => x = y ∧ (c.survey r t).Reaches root x.2) ?_ ?_ ?_
    · exact (follow_spares hr hc hw hhere ht hm hp).imp fun x hx => ⟨x, rfl, hx⟩
    · rintro x _ ⟨rfl, hx⟩
      exact hgo _ _ ⟨rfl, hx⟩
    · rintro x _ ⟨rfl, -⟩
      exact sparing_both (recordDependency_spares x.1)
  take m q := sparing_both (takeModule_spares m q.1 q.2)
  finish path := sparing_both (.modify fun _ => rfl)

end Loading

/-- Loading changes nothing, unless it fails at a repository that is not found. -/
theorem Program.load_left {c : Circumstances} {r : Remote} {t : Tree} {w : Files.Place}
    (hr : r.Failing) (hc : r.Confined) (hw : ∀ e ∈ w, Files.Ordinary e) (hhere : c.here = w.path)
    (ht : t.Sound) (m : Manifest) (more : Nat) :
    (Program.load c t (some m) r more).2 = t ∨
      (∃ e, (Program.load c t (some m) r more).1 = .error e) ∧
        c.Attempted r t m w (Program.load c t (some m) r more).2 := by
  have hgo := (Loading.walk_spares hr hc hw hhere ht m).go (.inl rfl) (t.entries.length + 2 + more) []
    (⟨rfl, .refl⟩ : m = m ∧ _) (.start t) rfl
  have hload : load c t (some m) r more = collect m (((Loading.walk r c).go
      (t.entries.length + 2 + more) [] m).run.run (.start t)) := rfl
  rw [hload]
  revert hgo
  generalize ((Loading.walk r c).go _ [] m).run.run (.start t) = result
  obtain ⟨done, p⟩ := result
  cases done with
  | ok u => exact fun h => .inl h.1
  | error e => exact fun h => h.imp id fun hleft => ⟨⟨e, rfl⟩, hleft⟩

end Arbor.Package
