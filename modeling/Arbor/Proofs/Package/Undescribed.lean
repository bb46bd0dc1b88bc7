import Arbor.Proofs.Package.Defects
import Arbor.Proofs.Package.Loading
import Arbor.Proofs.Package.Manifests

/-!
Loading falls over no dependency.

A draft may name a dependency without describing it. Here manifests are loaded together with the
dependencies of their drafts, and loading has an outcome of its own for one that is not described
(`Falling`). Since manifests are only made of drafts that describe all of them, loading goes the same
way as it does without (`Program.loadRaw_eq`).
-/

set_option autoImplicit false

namespace Arbor.Package

namespace Manifest

/-- The manifest that bytes hold, together with the dependencies as they were written. -/
def parseRaw (bytes : List UInt8) (path : String) :
    Except ManifestError (Manifest × Table (Option Dependency)) := do
  match ← (Draft.parse bytes).mapError (.unreadable path) with
  | none => throw (.empty path)
  | some d => ((d.manifest path).mapError .invalid).map (·, d.dependencies)

/-- The manifest at a path, together with the dependencies as they were written. -/
def loadRaw (t : Files.Tree) (here path : String) :
    Except ManifestError (Manifest × Table (Option Dependency)) := do
  if path.isEmpty then throw .emptyPath
  let full := Files.absolute here path
  match ← (t.look .open here full).mapError .unopened with
  | .directory => throw (.unreadable full .malformed)
  | .file bytes => parseRaw bytes full

theorem parseRaw_eq (bytes : List UInt8) (path : String) :
    parseRaw bytes path = (parse bytes path).map fun m => (m, m.raw) := by
  unfold parseRaw parse
  cases hd : Draft.parse bytes with
  | error e => rfl
  | ok d =>
    cases d with
    | none => rfl
    | some d =>
      simp only [Except.mapError, bind, Except.bind]
      cases hm : d.manifest path with
      | error problems => rfl
      | ok m =>
        obtain ⟨-, -, -, -, hraw⟩ := Draft.manifest_keeps (Draft.parse_sorted hd) hm
        simp only [Except.map, hraw]

theorem loadRaw_eq (t : Files.Tree) (here path : String) :
    loadRaw t here path = (load t here path).map fun m => (m, m.raw) := by
  unfold loadRaw load
  split
  next => rfl
  next =>
    simp only
    cases t.look .open here (Files.absolute here path) with
    | error e => rfl
    | ok entry =>
      cases entry with
      | directory => rfl
      | file bytes => exact parseRaw_eq bytes _

end Manifest

namespace Loading

/-- Loading that may also fall over a dependency that is not described, which is no error of its
own. -/
abbrev Falling := ExceptT (Option LoadError) (StateM Progress)

/-- A step that does not fall. -/
def steady {α : Type} (x : Loading α) : Falling α := x.adapt some

/-- The way of loading, by the dependencies of drafts. -/
def walkRaw (r : Remote) (c : Circumstances) :
    Walk Falling (Manifest × Table (Option Dependency)) (String × Option Dependency)
      (Resolved × Manifest × Table (Option Dependency)) where
  manifest := Prod.fst
  dependencies := Prod.snd
  fail e := steady ((walk r c).fail e)
  isDone path := steady ((walk r c).isDone path)
  follow m p :=
    match p.2 with
    | none => throw (if c.cancelled then some .cancelled else none)
    | some d => steady (follow Manifest.loadRaw r c m (p.1, d))
  target := Prod.snd
  record x := steady (recordDependency x.1)
  take m q := steady ((walk r c).take m q)
  finish path := steady ((walk r c).finish path)

variable {α β : Type} {r : Remote} {c : Circumstances}

/-- What came of it is the same, and nothing fell. -/
def Stays (post : α → β → Prop) (x : Except (Option LoadError) α × Progress) :
    Except LoadError β × Progress → Prop
  | (.ok b, p) => ∃ a, post a b ∧ x = (.ok a, p)
  | (.error e, p) => x = (.error (some e), p)

/-- Loading that does not fall, and loading that cannot. -/
def staying : Link Falling Loading where
  rel post x y := ∀ p, Stays post (x.run.run p) (y.run.run p)
  pure h := fun _ => ⟨_, h, rfl⟩
  bind := by
    intro _ _ _ _ mid post x y f g hx hg p
    have hfirst := hx p
    rw [run_bind]
    change Stays post ((x.run >>= ExceptT.bindCont f : StateM Progress _).run p) _
    change Stays post ((fun z : _ × Progress => (ExceptT.bindCont f z.1).run z.2) (x.run.run p)) _
    revert hfirst
    generalize y.run.run p = second
    obtain ⟨done, p'⟩ := second
    cases done with
    | error e =>
      intro hfirst
      change x.run.run p = _ at hfirst
      rw [hfirst]
      exact rfl
    | ok b =>
      rintro ⟨a, hab, hfirst⟩
      rw [hfirst]
      exact hg a b hab p'

theorem steady_stays {post : α → α → Prop} (h : ∀ a, post a a) (x : Loading α) :
    staying.rel post (steady x) x := by
  intro p
  have hsteady : (steady x).run.run p = ((x.run.run p).1.mapError some, (x.run.run p).2) := rfl
  rw [hsteady]
  generalize x.run.run p = result
  obtain ⟨done, p'⟩ := result
  cases done with
  | error e => exact rfl
  | ok a => exact ⟨a, h a, rfl⟩

/-- What manifests are read as only matters for what is given. -/
theorem follow_map {load : Files.Tree → (here path : String) → Except ManifestError α}
    {load' : Files.Tree → (here path : String) → Except ManifestError β} {f : α → β}
    (h : ∀ t here path, load' t here path = (load t here path).map f) (m : Manifest)
    (d : String × Dependency) (p : Progress) :
    (follow load' r c m d).run.run p =
      (((follow load r c m d).run.run p).1.map fun x => (x.1, f x.2),
        ((follow load r c m d).run.run p).2) := by
  unfold follow
  split
  next => rfl
  next =>
    rw [run_bind, run_bind]
    generalize (resolve r c m d.1 d.2).run.run p = result
    obtain ⟨done, p'⟩ := result
    cases done with
    | error e => rfl
    | ok found =>
      simp only
      rw [run_get_bind, run_get_bind, run_bind, run_bind, run_check, run_check, h]
      cases load p'.files c.here (Files.join found.directory Manifest.fileName) <;> rfl

theorem follow_stays (m : Manifest) (p : String × Dependency) :
    staying.rel (fun a b => a = (b.1, b.2, b.2.raw)) ((walkRaw r c).follow m (p.1, some p.2))
      ((walk r c).follow m p) := by
  intro q
  have hsteady : Stays Eq _ _ := steady_stays (fun _ => rfl) (follow Manifest.loadRaw r c m p) q
  have hmap : (follow Manifest.loadRaw r c m p).run.run q = _ :=
    follow_map Manifest.loadRaw_eq m p q
  change Stays _ ((steady (follow Manifest.loadRaw r c m p)).run.run q)
    ((follow Manifest.load r c m p).run.run q)
  rw [hmap] at hsteady
  revert hsteady
  generalize (follow Manifest.load r c m p).run.run q = result
  obtain ⟨done, q'⟩ := result
  cases done with
  | error e => exact id
  | ok b =>
    rintro ⟨a, rfl, hrun⟩
    exact ⟨_, rfl, hrun⟩

/-- Where every dependency is described, nothing falls. -/
theorem walkRaw_linked (r : Remote) (c : Circumstances) :
    (walkRaw r c).Linked staying (walk r c) fun a m => a = (m, m.raw) where
  manifest := by
    rintro _ m rfl
    rfl
  fail e := fun p => rfl
  isDone path := steady_stays (fun _ => rfl) _
  through := by
    rintro _ m rfl
    have hdescribed : (m, m.raw).2 = m.dependencies.map fun p => (p.1, some p.2) := rfl
    change List.Forall₂ _ (m, m.raw).2 m.dependencies
    rw [hdescribed, List.forall₂_map_left_iff, List.forall₂_same]
    intro p _ go go' hgo
    refine Walk.through_linked _ (follow_stays m p) ?_ ?_
    · rintro _ b rfl
      exact hgo _ _ rfl
    · rintro _ b rfl
      exact steady_stays (fun _ => trivial) _
  take m q := steady_stays (fun _ => trivial) _
  finish path := steady_stays (fun _ => trivial) _

end Loading

namespace Program

/-- The program of a manifest with the dependencies of its draft, and the files afterwards. -/
def loadRaw (c : Circumstances) (files : Files.Tree) (m : Manifest)
    (dependencies : Table (Option Dependency)) (r : Remote) (more : Nat) :
    Except (Option LoadError) Program × Files.Tree :=
  collect m (((Loading.walkRaw r c).go (files.entries.length + 2 + more) [] (m, dependencies)).run.run
    (.start files))

/-- Loading a manifest with the dependencies of its draft never falls. -/
theorem loadRaw_eq (c : Circumstances) (files : Files.Tree) (m : Manifest) (r : Remote) (more : Nat) :
    loadRaw c files m m.raw r more =
      ((load c files (some m) r more).1.mapError some, (load c files (some m) r more).2) := by
  have hgo := (Loading.walkRaw_linked r c).go (.inl rfl) (files.entries.length + 2 + more) []
    (rfl : (m, m.raw) = (m, m.raw)) (.start files)
  have hload : load c files (some m) r more = collect m (((Loading.walk r c).go
      (files.entries.length + 2 + more) [] m).run.run (.start files)) := rfl
  rw [Nat.add_zero] at hgo
  rw [hload, loadRaw]
  revert hgo
  generalize ((Loading.walk r c).go _ [] m).run.run (.start files) = result
  obtain ⟨done, p⟩ := result
  cases done with
  | error e =>
    intro hgo
    change _ = _ at hgo
    rw [hgo]
    rfl
  | ok u =>
    rintro ⟨_, _, hgo⟩
    rw [hgo]
    rfl

end Program

end Arbor.Package
