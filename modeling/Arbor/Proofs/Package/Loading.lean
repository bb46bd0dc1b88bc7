import Arbor.Proofs.Package.Checkouts
import Arbor.Proofs.Package.Survey
import Arbor.Proofs.Package.Walks

/-!
Loading goes through packages as a survey of the files says.

Where nothing can be cloned, a checkout that is found leaves a sound tree as it was
(`Checkout.fetchFrom_found`), and everything else only reads files. So loading looks at the same files
all along, until it fails, and does what `Survey.explore` does on what they hold
(`Loading.walk_tracks`).
-/

set_option autoImplicit false

namespace Arbor.Package

open Files (Tree)

/-! ## What the files hold -/

/-- The commit a dependency is pinned to, empty if there is none. -/
def Circumstances.pinned (c : Circumstances) (name : String) : String :=
  ((c.lock.bind (·.find? name)).map (·.commit)).getD ""

/-- Where a dependency is found while the files stay as they are. -/
def Circumstances.find (c : Circumstances) (r : Remote) (t : Tree) (m : Manifest) (name : String)
    (d : Dependency) : Except LoadError Resolved :=
  if d.isGit then
    match c.cache with
    | none => .error (.noFetcher name)
    | some cache =>
      match (Checkout.fetchFrom r t c.here cache name (some d) (c.pinned name)).1 with
      | .error e => .error (.checkout name e)
      | .ok x => .ok ⟨name, x.directory, x.source, x.commit⟩
  else
    match t.look .stat c.here (m.resolve d.path) with
    | .error e => .error (.unfound name e)
    | .ok (.file _) => .error (.noDirectory name (m.resolve d.path))
    | .ok .directory => .ok ⟨name, m.resolve d.path, "path:" ++ d.path, ""⟩

/-- What the files say about packages. -/
def Circumstances.survey (c : Circumstances) (r : Remote) (t : Tree) : Survey where
  edge m p := do
    let found ← c.find r t m p.1 p.2
    let child ← (Manifest.load t c.here (Files.join found.directory Manifest.fileName)).mapError
      (.manifest p.1)
    return (found, child)
  source m q := do
    let format ← (Format.ofPath (m.resolve q.2)).mapError (.moduleFormat q.1)
    let bytes ← (t.read c.here (m.resolve q.2)).mapError (.moduleFile q.1)
    let tree ← (format.readModule bytes).mapError (.moduleTree q.1 (m.resolve q.2))
    return ⟨q.1, m.name, m.resolve q.2, tree⟩

theorem Circumstances.edge_eq_ok_iff {c : Circumstances} {r : Remote} {t : Tree} {m : Manifest}
    {p : String × Dependency} {x : Resolved × Manifest} :
    (c.survey r t).edge m p = .ok x ↔ c.find r t m p.1 p.2 = .ok x.1 ∧
      Manifest.load t c.here (Files.join x.1.directory Manifest.fileName) = .ok x.2 := by
  simp only [survey]
  cases hfound : c.find r t m p.1 p.2 with
  | error e => simp [bind, Except.bind]
  | ok found =>
    cases hload : Manifest.load t c.here (Files.join found.directory Manifest.fileName) with
    | error e =>
      constructor
      · intro h
        simp only [bind, Except.bind, hload, Except.mapError] at h
        cases h
      · rintro ⟨hx, hload'⟩
        cases hx
        cases hload.symm.trans hload'
    | ok child =>
      simp only [bind, Except.bind, hload, Except.mapError, pure, Except.pure]
      constructor
      · intro h
        cases h
        exact ⟨rfl, hload⟩
      · rintro ⟨hx, hload'⟩
        cases hx
        cases hload.symm.trans hload'
        rfl

/-! ## Loading in step with the survey -/

namespace Loading

variable {α β : Type} {c : Circumstances} {r : Remote} {t : Tree}

/-- What was found, with the files. -/
def progress (t : Tree) (f : Found) : Progress := ⟨t, f.done, f.modules, f.dependencies⟩

theorem run_bind (x : Loading α) (g : α → Loading β) (p : Progress) :
    (x >>= g).run.run p =
      match x.run.run p with
      | (.ok a, p') => (g a).run.run p'
      | (.error e, p') => (.error e, p') := by
  change (match x.run.run p with
    | (r, p') => (ExceptT.bindCont g r).run p') = _
  obtain ⟨r, p'⟩ := x.run.run p
  cases r <;> rfl

/-- What loading comes to is what exploring comes to, and if it succeeds the files are the same. -/
def Comes (t : Tree) (post : α → β → Prop) (x : Except LoadError α × Progress) :
    Except LoadError (β × Found) → Prop
  | .ok (b, f) => ∃ a, post a b ∧ x = (.ok a, progress t f)
  | .error e => x.1 = .error e

/-- The step ends as exploring does, and if it succeeds the files are still the same. -/
def Tracks (t : Tree) (post : α → β → Prop) (x : Loading α) (y : Survey.Exploring β) : Prop :=
  ∀ f, Comes t post (x.run.run (progress t f)) (y.run f)

theorem Tracks.bind {γ δ : Type} {mid : α → β → Prop} {post : γ → δ → Prop} {x : Loading α}
    {y : Survey.Exploring β} {g : α → Loading γ} {k : β → Survey.Exploring δ} (hx : Tracks t mid x y)
    (hg : ∀ a b, mid a b → Tracks t post (g a) (k b)) : Tracks t post (x >>= g) (y >>= k) := by
  intro f
  have hfirst := hx f
  rw [run_bind]
  change Comes t post _ (y.run f >>= fun z => (k z.1).run z.2)
  revert hfirst
  cases y.run f with
  | error e =>
    generalize x.run.run (progress t f) = result
    obtain ⟨done, p⟩ := result
    rintro (rfl : done = .error e)
    exact rfl
  | ok z =>
    rintro ⟨a, hab, hrun⟩
    rw [hrun]
    exact hg a z.1 hab z.2

/-- Loading steps and the exploring they track. -/
def tracking (t : Tree) : Link Loading Survey.Exploring where
  rel := Tracks t
  pure h := fun _ => ⟨_, h, rfl⟩
  bind := Tracks.bind

@[simp] theorem progress_files (t : Tree) (f : Found) : (progress t f).files = t := rfl

@[simp] theorem progress_modules (t : Tree) (f : Found) : (progress t f).modules = f.modules := rfl

theorem run_get_bind (g : Progress → Loading β) (p : Progress) :
    (get >>= g).run.run p = (g p).run.run p := rfl

theorem run_check {ε : Type} (error : ε → LoadError) (x : Except ε α) (p : Progress) :
    (check error x).run.run p = (x.mapError error, p) := by
  cases x <;> rfl

/-- Finding a dependency changes nothing, unless it fails. -/
theorem resolve_tracks (hr : r.Failing) (ht : t.Sound) (m : Manifest) (name : String)
    (d : Dependency) : Tracks t Eq (resolve r c m name d) (liftM (c.find r t m name d)) := by
  intro f
  unfold resolve Circumstances.find Circumstances.pinned
  split
  next hgit =>
    cases c.cache with
    | none => exact rfl
    | some cache =>
      simp only
      rw [run_get_bind]
      cases hfetch : Checkout.fetchFrom r t c.here cache name (some d)
          (((c.lock.bind (·.find? name)).map (·.commit)).getD "") with
      | mk result t' =>
        simp only [progress_files, hfetch]
        cases result with
        | error e => exact rfl
        | ok x =>
          obtain ⟨rfl, -⟩ := (Checkout.fetchFrom_found hr ht).1 hfetch
          exact ⟨_, rfl, rfl⟩
  next hgit =>
    simp only
    rw [run_get_bind]
    simp only [progress_files]
    cases t.look .stat c.here (m.resolve d.path) with
    | error e => exact rfl
    | ok entry =>
      cases entry with
      | directory => exact ⟨_, rfl, rfl⟩
      | file bytes => exact rfl

theorem follow_tracks (hr : r.Failing) (ht : t.Sound) (hc : c.cancelled = false) (m : Manifest)
    (p : String × Dependency) :
    Tracks t Eq (follow Manifest.load r c m p) ((c.survey r t).walk.follow m p) := by
  have hexplore : (c.survey r t).walk.follow m p =
      (liftM (c.find r t m p.1 p.2) : Survey.Exploring Resolved) >>= fun found =>
        (liftM ((Manifest.load t c.here (Files.join found.directory Manifest.fileName)).mapError
          (LoadError.manifest p.1)) : Survey.Exploring Manifest) >>= fun child =>
            pure (found, child) := by
    funext f
    change ((c.survey r t).edge m p >>= fun x => pure (x, f)) = _
    simp only [Circumstances.survey]
    cases c.find r t m p.1 p.2 with
    | error e => rfl
    | ok found =>
      generalize Manifest.load t c.here = load
      change ((load (Files.join found.directory Manifest.fileName)).mapError (LoadError.manifest p.1)
        >>= fun child => pure (found, child)) >>= (fun x => pure (x, f)) =
          (liftM ((load (Files.join found.directory Manifest.fileName)).mapError
            (LoadError.manifest p.1)) >>= fun child => pure (found, child) :
              Survey.Exploring (Resolved × Manifest)) f
      cases load (Files.join found.directory Manifest.fileName) <;> rfl
  rw [hexplore]
  unfold follow
  simp only [hc, Bool.false_eq_true, if_false]
  refine Tracks.bind (resolve_tracks hr ht m p.1 p.2) ?_
  rintro found _ rfl f
  rw [run_get_bind, run_bind, run_check, progress_files]
  cases Manifest.load t c.here (Files.join found.directory Manifest.fileName) with
  | error e => exact rfl
  | ok child => exact ⟨_, rfl, rfl⟩

theorem takeModule_tracks (m : Manifest) (q : String × String) :
    Tracks t (fun _ _ => True) (takeModule c m q.1 q.2) ((c.survey r t).walk.take m q) := by
  intro f
  change Comes t _ _ (((c.survey r t).take m f q).map ((), ·))
  unfold takeModule Survey.take
  rw [run_get_bind]
  simp only [progress_modules, progress_files]
  cases f.modules.find? (·.name == q.1) with
  | some other => exact rfl
  | none =>
    simp only [Circumstances.survey]
    generalize Format.ofPath (m.resolve q.2) = x
    generalize t.read c.here (m.resolve q.2) = y
    generalize Format.readModule = read
    cases x with
    | error e => exact rfl
    | ok format =>
      cases y with
      | error e => exact rfl
      | ok bytes =>
        change Comes t _ ((check _ (read format bytes) >>= _ : Loading Unit).run.run (progress t f))
          ((((read format bytes).mapError _ >>= _).map _).map _)
        cases read format bytes with
        | error e => exact rfl
        | ok tree => exact ⟨(), trivial, rfl⟩

theorem recordDependency_tracks (x : Resolved × Manifest) :
    Tracks t (fun _ _ => True) (recordDependency x.1) ((c.survey r t).walk.record x) := by
  intro f
  refine ⟨(), trivial, ?_⟩
  change (Except.ok (), if f.dependencies.any (·.name == x.1.name) then progress t f else
    { progress t f with dependencies := f.dependencies ++ [x.1] }) =
      (Except.ok (), progress t (f.record x.1))
  unfold Found.record
  split <;> rfl

/-- The way of loading is the one the survey describes. -/
theorem walk_linked (hr : r.Failing) (ht : t.Sound) (hc : c.cancelled = false) :
    (walk r c).Linked (tracking t) (c.survey r t).walk Eq where
  manifest := by
    rintro m _ rfl
    rfl
  fail e := fun f => rfl
  isDone path := fun f => ⟨_, rfl, rfl⟩
  through := by
    rintro m _ rfl
    refine List.forall₂_same.2 fun p _ go go' hgo => ?_
    refine Walk.through_linked Eq (follow_tracks hr ht hc m p) ?_ ?_
    · rintro x _ rfl
      exact hgo _ _ rfl
    · rintro x _ rfl
      exact recordDependency_tracks x
  take := takeModule_tracks
  finish path := fun f => ⟨(), trivial, rfl⟩

/-- Loading goes through a manifest as the survey says. -/
theorem walk_tracks (hr : r.Failing) (ht : t.Sound) (hc : c.cancelled = false) (fuel : Nat)
    (chain : List (String × String)) (m : Manifest) (f : Found) :
    match (c.survey r t).explore fuel chain m f with
    | .ok f' => ((walk r c).go fuel chain m).run.run (progress t f) = (.ok (), progress t f')
    | .error e => (((walk r c).go fuel chain m).run.run (progress t f)).1 = .error e := by
  have h := (walk_linked hr ht hc).go (.inl rfl) fuel chain (rfl : m = m) f
  rw [Nat.add_zero, Survey.run_walk] at h
  revert h
  cases (c.survey r t).explore fuel chain m f with
  | error e => exact id
  | ok f' =>
    rintro ⟨_, _, hrun⟩
    exact hrun

end Loading

end Arbor.Package
