import Arbor.Package.Program
import Mathlib.Data.List.Chain
import Mathlib.Data.List.Nodup
import Mathlib.Logic.Relation

/-!
Going through packages, apart from the files.

A `Survey` says where each dependency of a manifest leads and what each of its modules holds.
`Survey.explore` goes the same way as loading does, with nothing but that to go by. Whatever comes out
is explained by the survey alone (`Survey.explore_outcome`): a success lists the packages that are
reached, each after those it depends on, and an error names what is wrong with one of them.
-/

set_option autoImplicit false

namespace Arbor.Package

/-- Where dependencies lead and what modules hold. -/
structure Survey where
  edge : Manifest → String × Dependency → Except LoadError (Resolved × Manifest)
  source : Manifest → String × String → Except LoadError SourceModule

/-- What was found so far. -/
structure Found where
  done : List String
  modules : List SourceModule
  dependencies : List Resolved

namespace Found

def nothing : Found := ⟨[], [], []⟩

/-- With a dependency, unless there is one of its name. -/
def record (f : Found) (r : Resolved) : Found :=
  if f.dependencies.any (·.name == r.name) then f
  else { f with dependencies := f.dependencies ++ [r] }

@[simp] theorem record_done (f : Found) (r : Resolved) : (f.record r).done = f.done := by
  unfold record
  split <;> rfl

@[simp] theorem record_modules (f : Found) (r : Resolved) : (f.record r).modules = f.modules := by
  unfold record
  split <;> rfl

theorem mem_record {f : Found} {r d : Resolved} (h : d ∈ (f.record r).dependencies) :
    d ∈ f.dependencies ∨ d = r := by
  unfold record at h
  split at h
  · exact .inl h
  · simpa using h

theorem names_record (f : Found) (r : Resolved) :
    r.name ∈ (f.record r).dependencies.map (·.name) := by
  unfold record
  split
  next h =>
    obtain ⟨d, hd, hname⟩ := List.any_eq_true.1 h
    exact List.mem_map.2 ⟨d, hd, beq_iff_eq.1 hname⟩
  next => simp

theorem dependencies_record (f : Found) (r : Resolved) :
    f.dependencies ⊆ (f.record r).dependencies := by
  unfold record
  split
  · exact List.Subset.refl _
  · exact List.subset_append_left _ _

end Found

namespace Survey

variable (s : Survey)

def take (m : Manifest) (f : Found) (q : String × String) : Except LoadError Found :=
  match f.modules.find? (·.name == q.1) with
  | some other => .error (.declaredTwice q.1 other.package m.name)
  | none => (s.source m q).map fun taken => { f with modules := f.modules ++ [taken] }

/-- Steps that add to what was found, or end with an error. -/
abbrev Exploring := StateT Found (Except LoadError)

/-- The way through packages that a survey describes. -/
def walk : Walk Exploring Manifest (String × Dependency) (Resolved × Manifest) where
  manifest := id
  dependencies := Manifest.dependencies
  fail e := liftM (Except.error e : Except LoadError Unit)
  isDone path := return (← get).done.contains path
  follow m p := liftM (s.edge m p)
  target := Prod.snd
  record x := modify (·.record x.1)
  take m q := fun f => (s.take m f q).map ((), ·)
  finish path := modify fun f => { f with done := path :: f.done }

/-- Goes through a manifest; the chain holds the paths and names of the manifests that led to it, the
latest first. -/
def explore (fuel : Nat) (chain : List (String × String)) (m : Manifest) (f : Found) :
    Except LoadError Found :=
  ((s.walk.go fuel chain m).run f).map Prod.snd

theorem run_walk (fuel : Nat) (chain : List (String × String)) (m : Manifest) (f : Found) :
    (s.walk.go fuel chain m).run f = (s.explore fuel chain m f).map ((), ·) := by
  unfold explore
  cases (s.walk.go fuel chain m).run f <;> rfl

theorem run_forM {α : Type} {body : α → Exploring Unit} {step : Found → α → Except LoadError Found}
    (h : ∀ a f, (body a).run f = (step f a).map ((), ·)) (l : List α) (f : Found) :
    (l.forM body).run f = (l.foldlM step f).map ((), ·) := by
  induction l generalizing f with
  | nil => rfl
  | cons a l ih =>
    change ((body a).run f >>= fun x => (l.forM body).run x.2) = _
    rw [h, List.foldlM_cons]
    cases step f a with
    | error e => rfl
    | ok f' => exact ih f'

theorem explore_succ (fuel : Nat) (chain : List (String × String)) (m : Manifest) (f : Found) :
    s.explore (fuel + 1) chain m f =
      let here := (m.path, m.name) :: chain
      if chain.any (·.1 == m.path) then .error (.cycle (here.map (·.2)).reverse)
      else if f.done.contains m.path then .ok f
      else do
        let f ← m.dependencies.foldlM (fun f p => do
          let x ← s.edge m p
          let f ← s.explore fuel here x.2 f
          return f.record x.1) f
        let f ← m.modules.foldlM (s.take m) f
        return { f with done := m.path :: f.done } := by
  have hthrough : ∀ p f, (s.walk.through (s.walk.go fuel ((m.path, m.name) :: chain)) m p).run f =
      (do
        let x ← s.edge m p
        let f ← s.explore fuel ((m.path, m.name) :: chain) x.2 f
        return f.record x.1 : Except LoadError Found).map ((), ·) := by
    intro p f
    unfold Walk.through
    cases hx : s.edge m p with
    | error e =>
      have hfollow : s.walk.follow m p = (liftM (s.edge m p) : Exploring _) := rfl
      rw [hfollow, hx]
      rfl
    | ok x =>
      have hfollow : s.walk.follow m p = (liftM (s.edge m p) : Exploring _) := rfl
      rw [hfollow, hx]
      change ((s.walk.go fuel ((m.path, m.name) :: chain) x.2).run f >>= fun y =>
        .ok ((), y.2.record x.1)) = _
      rw [run_walk]
      change _ = (s.explore fuel ((m.path, m.name) :: chain) x.2 f >>= fun f =>
        pure (f.record x.1)).map ((), ·)
      cases s.explore fuel ((m.path, m.name) :: chain) x.2 f <;> rfl
  have htake : ∀ q f, (s.walk.take m q).run f = (s.take m f q).map ((), ·) := fun _ _ => rfl
  have hmodules : ∀ x : Except LoadError Found,
      Except.map Prod.snd (x.map ((), ·) >>= fun y =>
        (m.modules.forM (s.walk.take m)).run y.2 >>= fun z =>
          .ok ((), { z.2 with done := m.path :: z.2.done })) =
      x >>= fun f => m.modules.foldlM (s.take m) f >>= fun f =>
        pure { f with done := m.path :: f.done } := by
    intro x
    cases x with
    | error e => rfl
    | ok f =>
      change Except.map Prod.snd ((m.modules.forM (s.walk.take m)).run f >>= fun z =>
        .ok ((), { z.2 with done := m.path :: z.2.done })) =
          m.modules.foldlM (s.take m) f >>= fun f => pure { f with done := m.path :: f.done }
      rw [run_forM htake]
      cases m.modules.foldlM (s.take m) f <;> rfl
  conv_lhs => unfold explore Walk.go
  simp only
  change Except.map Prod.snd ((if chain.any (·.1 == m.path) then _ else _ : Exploring Unit).run f) = _
  split
  next => rfl
  next =>
    change Except.map Prod.snd ((if f.done.contains m.path then _ else _ : Exploring Unit).run f) = _
    split
    next => rfl
    next =>
      change Except.map Prod.snd ((m.dependencies.forM (s.walk.through
        (s.walk.go fuel ((m.path, m.name) :: chain)) m)).run f >>= fun y =>
          (m.modules.forM (s.walk.take m)).run y.2 >>= fun z =>
            .ok ((), { z.2 with done := m.path :: z.2.done })) = _
      rw [run_forM hthrough]
      exact hmodules _

/-! ## What a survey says -/

/-- A dependency of the first package leads to the second. -/
def Depends (m child : Manifest) : Prop := ∃ p ∈ m.dependencies, ∃ r, s.edge m p = .ok (r, child)

abbrev Reaches : Manifest → Manifest → Prop := Relation.ReflTransGen s.Depends

/-- A dependency of a package that is reached was found there. -/
def Resolves (root : Manifest) (r : Resolved) : Prop :=
  ∃ a p child, s.Reaches root a ∧ p ∈ a.dependencies ∧ s.edge a p = .ok (r, child)

/-- The modules of a package that can be read. -/
def sources (m : Manifest) : List SourceModule :=
  m.modules.filterMap fun q => (s.source m q).toOption

mutual

/-- Depth first: a package that is listed already is passed over, any other one is listed after its
dependencies. -/
inductive Lists : List Manifest → Manifest → List Manifest → Prop where
  | again {before : List Manifest} {m : Manifest} :
      m.path ∈ before.map (·.path) → Lists before m before
  | fresh {before after : List Manifest} {m : Manifest} :
      m.path ∉ before.map (·.path) → ListsAll m before m.dependencies after →
      Lists before m (after ++ [m])

/-- The dependencies of a package, one after the other. -/
inductive ListsAll : Manifest → List Manifest → Table Dependency → List Manifest → Prop where
  | nil {m : Manifest} {before : List Manifest} : ListsAll m before [] before
  | cons {m child : Manifest} {before mid after : List Manifest} {p : String × Dependency}
      {ps : Table Dependency} {r : Resolved} :
      s.edge m p = .ok (r, child) → Lists before child mid → ListsAll m mid ps after →
      ListsAll m before (p :: ps) after

end

/-- What an error says is so. -/
inductive Explains (root : Manifest) : LoadError → Prop where
  | unresolved {m : Manifest} {p : String × Dependency} {e : LoadError} :
      s.Reaches root m → p ∈ m.dependencies → s.edge m p = .error e → Explains root e
  | unread {m : Manifest} {q : String × String} {e : LoadError} :
      s.Reaches root m → q ∈ m.modules → s.source m q = .error e → Explains root e
  | cycle {ms : List Manifest} {m : Manifest} :
      (ms ++ [m]).IsChain s.Depends → (ms ++ [m]).head? = some root → m ∈ ms →
      Explains root (.cycle ((ms ++ [m]).map (·.name)))
  | twice {a b : Manifest} {name : String} :
      s.Reaches root a → s.Reaches root b → a ≠ b → name ∈ a.modules.map Prod.fst →
      name ∈ b.modules.map Prod.fst → Explains root (.declaredTwice name a.name b.name)

/-- The packages that are reached are told apart by their paths, and there are not too many. -/
structure Bounded (root : Manifest) (bound : Nat) : Prop where
  eq_of_path : ∀ {a b}, s.Reaches root a → s.Reaches root b → a.path = b.path → a = b
  length_le : ∀ {ms : List Manifest}, (∀ a ∈ ms, s.Reaches root a) → (ms.map (·.path)).Nodup →
    ms.length ≤ bound
  names_nodup : ∀ {a}, s.Reaches root a → (a.modules.map Prod.fst).Nodup
  source_eq : ∀ {a q x}, s.source a q = .ok x → x.name = q.1 ∧ x.package = a.name

/-- What was found is what the listed packages say. -/
structure Holds (root : Manifest) (f : Found) (order : List Manifest) : Prop where
  reached : ∀ a ∈ order, s.Reaches root a
  done : ∀ path, path ∈ f.done ↔ path ∈ order.map (·.path)
  nodup : order.Nodup
  closed : ∀ l a r, order = l ++ a :: r → ∀ p ∈ a.dependencies, ∃ x, s.edge a p = .ok x ∧ x.2 ∈ l
  readable : ∀ a ∈ order, ∀ q ∈ a.modules, ∃ x, s.source a q = .ok x
  modules : f.modules = order.flatMap s.sources
  distinct : (f.modules.map (·.name)).Nodup
  resolved : ∀ d ∈ f.dependencies, s.Resolves root d
  recorded : ∀ a ∈ order, ∀ p ∈ a.dependencies, ∀ x, s.edge a p = .ok x →
    x.1.name ∈ f.dependencies.map (·.name)

/-! ## One step at a time -/

section

variable {s : Survey} {root m : Manifest} {bound : Nat} {f f' : Found} {order : List Manifest}

/-- How a step ends. -/
def Ends {α : Type} (good : α → Prop) (bad : LoadError → Prop) : Except LoadError α → Prop
  | .ok a => good a
  | .error e => bad e

theorem Ends.bind {α β : Type} {mid : α → Prop} {good : β → Prop} {bad : LoadError → Prop}
    {x : Except LoadError α} {g : α → Except LoadError β} (hx : Ends mid bad x)
    (hg : ∀ a, mid a → Ends good bad (g a)) : Ends good bad (x >>= g) := by
  cases x with
  | error e => exact hx
  | ok a => exact hg a hx

theorem Ends.imp {α : Type} {good good' : α → Prop} {bad : LoadError → Prop}
    {x : Except LoadError α} (h : Ends good bad x) (himp : ∀ a, good a → good' a) :
    Ends good' bad x := by
  cases x with
  | error e => exact h
  | ok a => exact himp a h

theorem mem_sources {x : SourceModule} (hb : s.Bounded root bound) (h : x ∈ s.sources m) :
    x.name ∈ m.modules.map Prod.fst ∧ x.package = m.name := by
  obtain ⟨q, hq, hx⟩ := List.mem_filterMap.1 h
  cases hs : s.source m q with
  | error e =>
    rw [hs] at hx
    cases hx
  | ok y =>
    rw [hs] at hx
    cases hx
    obtain ⟨hname, hpackage⟩ := hb.source_eq hs
    exact ⟨List.mem_map.2 ⟨q, hq, hname.symm⟩, hpackage⟩

/-- The part of a package that was taken in so far. -/
def sourcesOf (s : Survey) (m : Manifest) (qs : List (String × String)) : List SourceModule :=
  qs.filterMap fun q => (s.source m q).toOption

/-- A module of a package that is taken in has another name than those of the packages listed before
and than those taken in so far. -/
theorem take_outcome (hb : s.Bounded root bound) (hm : s.Reaches root m) (hfresh : m ∉ order)
    (hreached : ∀ a ∈ order, s.Reaches root a) {pre qs : List (String × String)}
    {q : String × String} (hmodules : m.modules = pre ++ q :: qs)
    (hf : f.modules = order.flatMap s.sources ++ s.sourcesOf m pre)
    (hdistinct : (f.modules.map (·.name)).Nodup) :
    Ends (fun f' => ∃ x, s.source m q = .ok x ∧ f' = { f with modules := f.modules ++ [x] } ∧
        (f'.modules.map (·.name)).Nodup) (s.Explains root) (s.take m f q) := by
  have hq : q ∈ m.modules := by
    rw [hmodules]
    simp
  unfold take
  split
  next other hother =>
    have hname : other.name = q.1 := by simpa using List.find?_some hother
    have hmem := List.mem_of_find?_eq_some hother
    rw [hf] at hmem
    obtain hmem | hmem := List.mem_append.1 hmem
    · -- The other one is a module of a package that is listed already.
      obtain ⟨a, ha, hx⟩ := List.mem_flatMap.1 hmem
      obtain ⟨hin, hpackage⟩ := mem_sources hb hx
      have hne : a ≠ m := by
        rintro rfl
        exact hfresh ha
      rw [hpackage]
      exact .twice (hreached a ha) hm hne (hname ▸ hin) (List.mem_map_of_mem hq)
    · -- Within one package names differ.
      exfalso
      obtain ⟨q', hq', hx⟩ := List.mem_filterMap.1 hmem
      cases hs : s.source m q' with
      | error e =>
        rw [hs] at hx
        cases hx
      | ok y =>
        rw [hs] at hx
        cases hx
        have hnodup := hb.names_nodup hm
        rw [hmodules, List.map_append, List.map_cons] at hnodup
        have hne := (List.nodup_append.1 hnodup).2.2 q'.1 (List.mem_map_of_mem hq') q.1
          List.mem_cons_self
        exact hne ((hb.source_eq hs).1.symm.trans hname)
  next hnone =>
    cases hs : s.source m q with
    | error e => exact .unread hm hq hs
    | ok taken =>
      have hother : taken.name ∉ f.modules.map (·.name) := by
        intro hin
        obtain ⟨x, hx, hname⟩ := List.mem_map.1 hin
        have := List.find?_eq_none.1 hnone x hx
        rw [(hb.source_eq hs).1] at hname
        exact this (beq_iff_eq.2 hname)
      refine ⟨taken, rfl, rfl, ?_⟩
      rw [List.map_append]
      exact hdistinct.append (List.nodup_singleton _) (by simpa using hother)

theorem takeAll_outcome (hb : s.Bounded root bound) (hm : s.Reaches root m) (hfresh : m ∉ order)
    (hreached : ∀ a ∈ order, s.Reaches root a) (qs : List (String × String)) :
    ∀ (pre : List (String × String)) (f : Found), m.modules = pre ++ qs →
      f.modules = order.flatMap s.sources ++ s.sourcesOf m pre → (f.modules.map (·.name)).Nodup →
      Ends (fun f' => (∀ q ∈ qs, ∃ x, s.source m q = .ok x) ∧
          f'.modules = f.modules ++ s.sourcesOf m qs ∧ (f'.modules.map (·.name)).Nodup ∧
          f'.done = f.done ∧ f'.dependencies = f.dependencies)
        (s.Explains root) (qs.foldlM (s.take m) f) := by
  induction qs with
  | nil =>
    intro pre f _ _ hdistinct
    exact ⟨nofun, by simp [sourcesOf], hdistinct, rfl, rfl⟩
  | cons q qs ih =>
    intro pre f hmodules hf hdistinct
    rw [List.foldlM_cons]
    refine Ends.bind (take_outcome hb hm hfresh hreached hmodules hf hdistinct) ?_
    rintro _ ⟨taken, hs, rfl, hdistinct'⟩
    have hrest := ih (pre ++ [q]) _ (by simp [hmodules])
      (by simp [hf, sourcesOf, hs, Except.toOption]) hdistinct'
    refine hrest.imp ?_
    rintro f' ⟨hreadable, hmods, hsame⟩
    refine ⟨List.forall_mem_cons.2 ⟨⟨_, hs⟩, hreadable⟩, ?_, hsame⟩
    rw [hmods]
    simp [sourcesOf, hs, Except.toOption]

/-- A way from the root to a package: the packages before it. -/
structure Way (s : Survey) (root : Manifest) (ms : List Manifest) (m : Manifest) : Prop where
  steps : (ms ++ [m]).IsChain s.Depends
  head : (ms ++ [m]).head? = some root
  reached : ∀ a ∈ ms ++ [m], s.Reaches root a
  nodup : (ms.map (·.path)).Nodup

theorem Way.last {ms : List Manifest} (h : Way s root ms m) : s.Reaches root m :=
  h.reached m (List.mem_append_right _ (List.mem_singleton.2 rfl))

theorem Way.extend {ms : List Manifest} {child : Manifest} (h : Way s root ms m)
    (hfresh : m.path ∉ ms.map (·.path)) (hd : s.Depends m child) : Way s root (ms ++ [m]) child where
  steps := by
    refine List.isChain_append.2 ⟨h.steps, List.isChain_singleton _, ?_⟩
    intro a ha b hb
    rw [List.getLast?_concat] at ha
    cases ha
    cases hb
    exact hd
  head := by
    rw [List.head?_append, h.head]
    rfl
  reached := by
    intro a ha
    obtain ha | ha := List.mem_append.1 ha
    · exact h.reached a ha
    · rw [List.mem_singleton.1 ha]
      exact h.last.tail hd
  nodup := by
    rw [List.map_append]
    exact h.nodup.append (List.nodup_singleton _) (by simpa using hfresh)

/-- A package is listed after all it depends on. -/
theorem Holds.list (h : s.Holds root f order) (hm : s.Reaches root m)
    (hpath : m.path ∉ order.map (·.path))
    (hdeps : ∀ p ∈ m.dependencies, ∃ x, s.edge m p = .ok x ∧ x.2 ∈ order ∧
      x.1.name ∈ f.dependencies.map (·.name))
    (hreadable : ∀ q ∈ m.modules, ∃ x, s.source m q = .ok x)
    (hmodules : f'.modules = f.modules ++ s.sources m)
    (hdistinct : (f'.modules.map (·.name)).Nodup)
    (hdependencies : f'.dependencies = f.dependencies) (hdone : f'.done = m.path :: f.done) :
    s.Holds root f' (order ++ [m]) where
  reached := by
    intro a ha
    obtain ha | ha := List.mem_append.1 ha
    · exact h.reached a ha
    · rwa [List.mem_singleton.1 ha]
  done := by
    intro path
    rw [hdone, List.mem_cons, h.done, List.map_append, List.mem_append, or_comm]
    simp
  nodup := by
    refine h.nodup.append (List.nodup_singleton _) ?_
    simp only [List.disjoint_singleton]
    exact fun ha => hpath (List.mem_map_of_mem ha)
  closed := by
    intro l a r heq p hp
    obtain rfl | ⟨r', z, rfl⟩ := List.eq_nil_or_concat r
    · obtain ⟨rfl, hlast⟩ := List.append_inj' heq rfl
      cases hlast
      obtain ⟨x, hx, hin, -⟩ := hdeps p hp
      exact ⟨x, hx, hin⟩
    · have heq : order ++ [m] = (l ++ a :: r') ++ [z] := by simpa using heq
      exact h.closed l a r' (List.append_inj' heq rfl).1 p hp
  readable := by
    intro a ha
    obtain ha | ha := List.mem_append.1 ha
    · exact h.readable a ha
    · rwa [List.mem_singleton.1 ha]
  modules := by
    rw [hmodules, h.modules]
    simp
  distinct := hdistinct
  resolved := by
    rw [hdependencies]
    exact h.resolved
  recorded := by
    rw [hdependencies]
    intro a ha p hp x hx
    obtain ha | ha := List.mem_append.1 ha
    · exact h.recorded a ha p hp x hx
    · rw [List.mem_singleton.1 ha] at hp hx
      obtain ⟨y, hy, -, hrec⟩ := hdeps p hp
      cases hx.symm.trans hy
      exact hrec

theorem Holds.record (h : s.Holds root f order) (hm : s.Reaches root m) {p : String × Dependency}
    {x : Resolved × Manifest} (hp : p ∈ m.dependencies) (hx : s.edge m p = .ok x) :
    s.Holds root (f.record x.1) order where
  reached := h.reached
  done := by
    rw [Found.record_done]
    exact h.done
  nodup := h.nodup
  closed := h.closed
  readable := h.readable
  modules := by rw [Found.record_modules, h.modules]
  distinct := by
    rw [Found.record_modules]
    exact h.distinct
  resolved := by
    intro d hd
    obtain hd | rfl := Found.mem_record hd
    · exact h.resolved d hd
    · exact ⟨m, p, x.2, hm, hp, hx⟩
  recorded := by
    intro a ha p hp y hy
    exact List.map_subset _ (Found.dependencies_record f x.1) (h.recorded a ha p hp y hy)

/-- What going through a package comes to: a longer list, or a true complaint. -/
def Explored (s : Survey) (root : Manifest) (ms order : List Manifest) (f : Found)
    (lists : List Manifest → Prop) (f' : Found) : Prop :=
  ∃ out, lists (order ++ out) ∧ s.Holds root f' (order ++ out) ∧
    (∀ a ∈ out, a.path ∉ ms.map (·.path)) ∧ f.dependencies ⊆ f'.dependencies

theorem Explored.record {ms : List Manifest} {lists : List Manifest → Prop}
    (h : s.Explored root ms order f lists f') (hm : s.Reaches root m) {p : String × Dependency}
    {x : Resolved × Manifest} (hp : p ∈ m.dependencies) (hx : s.edge m p = .ok x) :
    s.Explored root ms order f lists (f'.record x.1) := by
  obtain ⟨out, hlists, hholds, hapart, hkept⟩ := h
  exact ⟨out, hlists, hholds.record hm hp hx, hapart,
    List.Subset.trans hkept (Found.dependencies_record f' x.1)⟩

theorem exploreAll_outcome {ms : List Manifest} {go : Manifest → Found → Except LoadError Found}
    (hm : s.Reaches root m)
    (hgo : ∀ (child : Manifest) (order : List Manifest) (f : Found), s.Depends m child →
      s.Holds root f order →
      Ends (fun f' => s.Explored root ms order f (s.Lists order child) f' ∧
        child.path ∈ f'.done) (s.Explains root) (go child f))
    (ps : Table Dependency) :
    ∀ (order : List Manifest) (f : Found), ps ⊆ m.dependencies → s.Holds root f order →
      Ends (fun f' => s.Explored root ms order f (s.ListsAll m order ps) f' ∧
        ∀ p ∈ ps, ∃ x, s.edge m p = .ok x ∧ x.2.path ∈ f'.done ∧
          x.1.name ∈ f'.dependencies.map (·.name)) (s.Explains root)
        (ps.foldlM (fun f p => do
          let x ← s.edge m p
          let f ← go x.2 f
          return f.record x.1) f) := by
  induction ps with
  | nil =>
    intro order f _ h
    exact ⟨⟨[], by simpa using .nil, by simpa using h, nofun, List.Subset.refl _⟩, nofun⟩
  | cons p ps ih =>
    intro order f hps h
    have hp : p ∈ m.dependencies := hps List.mem_cons_self
    rw [List.foldlM_cons]
    cases hx : s.edge m p with
    | error e => exact .unresolved hm hp hx
    | ok x =>
      have hd : s.Depends m x.2 := ⟨p, hp, x.1, hx⟩
      have hfirst : Ends (fun f₁ => s.Explored root ms order f (s.Lists order x.2) f₁ ∧
          x.2.path ∈ f₁.done ∧ x.1.name ∈ f₁.dependencies.map (·.name)) (s.Explains root)
          (go x.2 f >>= fun f => pure (f.record x.1)) := by
        refine (hgo x.2 order f hd h).bind ?_
        rintro f₁ ⟨hexplored, hdone⟩
        refine ⟨hexplored.record hm hp hx, ?_, Found.names_record f₁ x.1⟩
        rwa [Found.record_done]
      refine Ends.bind hfirst ?_
      rintro f₁ ⟨⟨out₁, hlists₁, hholds₁, hapart₁, hkept₁⟩, hdone₁, hrec₁⟩
      refine (ih _ f₁ (List.subset_of_cons_subset hps) hholds₁).imp ?_
      rintro f₂ ⟨⟨out₂, hlists₂, hholds₂, hapart₂, hkept₂⟩, hrest⟩
      refine ⟨⟨out₁ ++ out₂, ?_, ?_, ?_, List.Subset.trans hkept₁ hkept₂⟩, ?_⟩
      · rw [← List.append_assoc]
        exact .cons hx hlists₁ hlists₂
      · rwa [← List.append_assoc]
      · intro a ha
        exact (List.mem_append.1 ha).elim (hapart₁ a) (hapart₂ a)
      · refine List.forall_mem_cons.2 ⟨⟨x, hx, ?_, List.map_subset _ hkept₂ hrec₁⟩, hrest⟩
        rw [hholds₂.done, List.map_append]
        exact List.mem_append_left _ ((hholds₁.done _).1 hdone₁)

/-- Once all its dependencies were gone through, a package takes its modules in and is listed. -/
theorem finish_outcome (hb : s.Bounded root bound) (hm : s.Reaches root m) {ms : List Manifest}
    {f₁ : Found} (hfresh : m.path ∉ ms.map (·.path)) (hnew : m.path ∉ order.map (·.path))
    (hexplored : s.Explored root (ms ++ [m]) order f (s.ListsAll m order m.dependencies) f₁)
    (hdeps : ∀ p ∈ m.dependencies, ∃ x, s.edge m p = .ok x ∧ x.2.path ∈ f₁.done ∧
      x.1.name ∈ f₁.dependencies.map (·.name)) :
    Ends (fun f' => s.Explored root ms order f (s.Lists order m) f' ∧ m.path ∈ f'.done)
      (s.Explains root) (do
        let f₂ ← m.modules.foldlM (s.take m) f₁
        return { f₂ with done := m.path :: f₂.done }) := by
  obtain ⟨out, hlists, hholds, hapart, hkept⟩ := hexplored
  have hpath : m.path ∉ (order ++ out).map (·.path) := by
    rw [List.map_append, List.mem_append, not_or]
    refine ⟨hnew, fun hin => ?_⟩
    obtain ⟨a, ha, hname⟩ := List.mem_map.1 hin
    exact hapart a ha (by simp [hname])
  have hchildren : ∀ p ∈ m.dependencies, ∃ x, s.edge m p = .ok x ∧ x.2 ∈ order ++ out ∧
      x.1.name ∈ f₁.dependencies.map (·.name) := by
    intro p hp
    obtain ⟨x, hx, hin, hrec⟩ := hdeps p hp
    obtain ⟨b, hbin, hbpath⟩ := List.mem_map.1 ((hholds.done _).1 hin)
    have hreach : s.Reaches root x.2 := hm.tail ⟨p, hp, x.1, hx⟩
    exact ⟨x, hx, hb.eq_of_path (hholds.reached b hbin) hreach hbpath ▸ hbin, hrec⟩
  have htake := takeAll_outcome hb hm (fun hin => hpath (List.mem_map_of_mem hin))
    hholds.reached m.modules [] f₁ rfl (by simp [sourcesOf, hholds.modules]) hholds.distinct
  refine Ends.bind htake ?_
  rintro f₂ ⟨hreadable, hmodules, hdistinct, hdone₂, hdependencies⟩
  refine ⟨⟨out ++ [m], ?_, ?_, ?_, ?_⟩, List.mem_cons_self⟩
  · rw [← List.append_assoc]
    exact .fresh hnew hlists
  · rw [← List.append_assoc]
    exact hholds.list hm hpath hchildren hreadable hmodules hdistinct hdependencies
      (by simp [hdone₂])
  · intro a ha
    obtain ha | ha := List.mem_append.1 ha
    · intro hin
      refine hapart a ha ?_
      rw [List.map_append]
      exact List.mem_append_left _ hin
    · rwa [List.mem_singleton.1 ha]
  · exact hdependencies ▸ hkept

theorem explore_outcome (hb : s.Bounded root bound) (fuel : Nat) :
    ∀ (ms : List Manifest) (m : Manifest) (order : List Manifest) (f : Found),
      s.Way root ms m → bound < fuel + ms.length → s.Holds root f order →
      Ends (fun f' => s.Explored root ms order f (s.Lists order m) f' ∧ m.path ∈ f'.done)
        (s.Explains root) (s.explore fuel (ms.map fun a => (a.path, a.name)).reverse m f) := by
  induction fuel with
  | zero =>
    intro ms m order f hway hfuel _
    have := hb.length_le (fun a ha => hway.reached a (List.mem_append_left _ ha)) hway.nodup
    omega
  | succ fuel ih =>
    intro ms m order f hway hfuel h
    have hm := hway.last
    rw [explore_succ]
    simp only
    split
    next hcycle =>
      obtain ⟨a, ha, hpath⟩ : ∃ a ∈ ms, a.path = m.path := by simpa using hcycle
      have hame : a = m :=
        hb.eq_of_path (hway.reached a (List.mem_append_left _ ha)) hm hpath
      have hnames : (((m.path, m.name) :: (ms.map fun a => (a.path, a.name)).reverse).map
          (·.2)).reverse = (ms ++ [m]).map (·.name) := by simp
      rw [hnames]
      exact .cycle hway.steps hway.head (hame ▸ ha)
    next hcycle =>
      have hfresh : m.path ∉ ms.map (·.path) := by simpa using hcycle
      split
      next hdone =>
        have hdone : m.path ∈ f.done := by simpa using hdone
        refine ⟨⟨[], ?_, by simpa using h, nofun, List.Subset.refl _⟩, hdone⟩
        rw [List.append_nil]
        exact .again ((h.done _).1 hdone)
      next hdone =>
        have hnew : m.path ∉ order.map (·.path) := by
          rw [← h.done]
          simpa using hdone
        have hhere : (m.path, m.name) :: (ms.map fun a => (a.path, a.name)).reverse =
            ((ms ++ [m]).map fun a => (a.path, a.name)).reverse := by simp
        have hgo := fun child order f (hd : s.Depends m child) =>
          ih (ms ++ [m]) child order f (hway.extend hfresh hd) (by simp; omega)
        rw [hhere]
        refine Ends.bind (exploreAll_outcome hm hgo m.dependencies order f (List.Subset.refl _) h) ?_
        rintro f₁ ⟨hexplored, hdeps⟩
        exact finish_outcome hb hm hfresh hnew hexplored hdeps

/-! ## Whole packages -/

theorem holds_nothing (s : Survey) (root : Manifest) : s.Holds root .nothing [] where
  reached := nofun
  done := by simp [Found.nothing]
  nodup := List.nodup_nil
  closed := by simp
  readable := nofun
  modules := rfl
  distinct := List.nodup_nil
  resolved := nofun
  recorded := nofun

theorem way_root (s : Survey) (root : Manifest) : s.Way root [] root where
  steps := List.isChain_singleton _
  head := rfl
  reached := by
    intro a ha
    rw [List.mem_singleton.1 ha]
  nodup := List.nodup_nil

/-- The dependencies of a listed package are listed before it, and so are theirs. -/
theorem Holds.before (h : s.Holds root f order) {a b : Manifest}
    (hab : Relation.TransGen s.Depends a b) {l r : List Manifest} (hl : order = l ++ a :: r) :
    b ∈ l := by
  induction hab with
  | single hd =>
    obtain ⟨p, hp, res, hx⟩ := hd
    obtain ⟨y, hy, hin⟩ := h.closed l a r hl p hp
    cases hx.symm.trans hy
    exact hin
  | tail _ hd ih =>
    obtain ⟨p, hp, res, hx⟩ := hd
    obtain ⟨l₁, l₂, rfl⟩ := List.append_of_mem ih
    obtain ⟨y, hy, hin⟩ := h.closed l₁ _ (l₂ ++ a :: r) (by simpa using hl) p hp
    cases hx.symm.trans hy
    exact List.mem_append_left _ hin

theorem Holds.mem_of_reaches (h : s.Holds root f order) (hroot : root ∈ order) {a : Manifest}
    (ha : s.Reaches root a) : a ∈ order := by
  obtain rfl | hd := Relation.reflTransGen_iff_eq_or_transGen.1 ha
  · exact hroot
  · obtain ⟨l, r, hl⟩ := List.append_of_mem hroot
    rw [hl]
    exact List.mem_append_left _ (h.before hd hl)

/-- Nothing is wrong with the packages that are reached. -/
structure Fit (s : Survey) (root : Manifest) : Prop where
  resolved : ∀ a, s.Reaches root a → ∀ p ∈ a.dependencies, ∃ x, s.edge a p = .ok x
  readable : ∀ a, s.Reaches root a → ∀ q ∈ a.modules, ∃ x, s.source a q = .ok x
  acyclic : ∀ a, s.Reaches root a → ¬ Relation.TransGen s.Depends a a
  disjoint : ∀ a b, s.Reaches root a → s.Reaches root b → a ≠ b →
    ∀ name ∈ a.modules.map Prod.fst, name ∉ b.modules.map Prod.fst

theorem names_sources (hb : s.Bounded root bound) {a : Manifest}
    (h : ∀ q ∈ a.modules, ∃ x, s.source a q = .ok x) :
    (s.sources a).map (·.name) = a.modules.map Prod.fst := by
  unfold sources
  generalize a.modules = qs at h
  induction qs with
  | nil => rfl
  | cons q qs ih =>
    obtain ⟨⟨x, hx⟩, hqs⟩ := List.forall_mem_cons.1 h
    have hsome : (s.source a q).toOption = some x := by
      rw [hx]
      rfl
    rw [List.filterMap_cons]
    simp only [hsome, List.map_cons, ih hqs, (hb.source_eq hx).1]

theorem Holds.fit (hb : s.Bounded root bound) (h : s.Holds root f order) (hroot : root ∈ order) :
    s.Fit root where
  resolved := by
    intro a ha p hp
    obtain ⟨l, r, hl⟩ := List.append_of_mem (h.mem_of_reaches hroot ha)
    obtain ⟨x, hx, -⟩ := h.closed l a r hl p hp
    exact ⟨x, hx⟩
  readable := fun a ha => h.readable a (h.mem_of_reaches hroot ha)
  acyclic := by
    intro a ha hcycle
    obtain ⟨l, r, hl⟩ := List.append_of_mem (h.mem_of_reaches hroot ha)
    have hnodup := h.nodup
    rw [hl] at hnodup
    exact (List.nodup_append.1 hnodup).2.2 a (h.before hcycle hl) a List.mem_cons_self rfl
  disjoint := by
    intro a b ha hb' hne name hna hnb
    have hdistinct := h.distinct
    rw [h.modules, List.map_flatMap, List.nodup_flatMap] at hdistinct
    have ha := h.mem_of_reaches hroot ha
    have hb' := h.mem_of_reaches hroot hb'
    rw [← names_sources hb (h.readable a ha)] at hna
    rw [← names_sources hb (h.readable b hb')] at hnb
    have hsymm : Std.Symm (Function.onFun List.Disjoint fun a =>
        (s.sources a).map (·.name)) := ⟨fun _ _ h _ ha hb => h hb ha⟩
    exact hdistinct.2.forall ha hb' hne hna hnb

theorem Explains.not_fit {e : LoadError} (h : s.Explains root e) : ¬ s.Fit root := by
  intro hfit
  cases h with
  | unresolved hm hp he =>
    obtain ⟨x, hx⟩ := hfit.resolved _ hm _ hp
    cases he.symm.trans hx
  | unread hm hq he =>
    obtain ⟨x, hx⟩ := hfit.readable _ hm _ hq
    cases he.symm.trans hx
  | cycle hsteps hhead hin =>
    rename_i ms m
    have hpairs : (ms ++ [m]).Pairwise (Relation.TransGen s.Depends) :=
      List.isChain_iff_pairwise.1 (hsteps.imp fun _ _ => .single)
    obtain ⟨l, r, rfl⟩ := List.append_of_mem hin
    have hcycle : Relation.TransGen s.Depends m m :=
      (List.pairwise_append.1 hpairs).2.2 m (by simp) m (by simp)
    have hreach : s.Reaches root m := by
      cases l with
      | nil =>
        cases hhead
        exact .refl
      | cons a l =>
        cases hhead
        exact ((List.pairwise_append.1 hpairs).2.2 root (by simp) m (by simp)).to_reflTransGen
    exact hfit.acyclic m hreach hcycle
  | twice ha hb hne hna hnb => exact hfit.disjoint _ _ ha hb hne _ hna hnb

/-- How going through everything from a root ends. -/
theorem explore_root (hb : s.Bounded root bound) {fuel : Nat} (hfuel : bound < fuel) :
    Ends (fun f => ∃ order, s.Lists [] root order ∧ s.Holds root f order ∧ root ∈ order)
      (s.Explains root) (s.explore fuel [] root .nothing) := by
  have h := explore_outcome hb fuel [] root [] .nothing (way_root s root) (by simpa using hfuel)
    (holds_nothing s root)
  refine h.imp ?_
  rintro f ⟨⟨order, hlists, hholds, -⟩, hdone⟩
  obtain ⟨a, ha, hpath⟩ := List.mem_map.1 ((hholds.done _).1 hdone)
  have heq : a = root := hb.eq_of_path (hholds.reached a ha) .refl hpath
  exact ⟨order, hlists, hholds, heq ▸ ha⟩

theorem explore_ok_iff (hb : s.Bounded root bound) {fuel : Nat} (hfuel : bound < fuel) :
    (∃ f, s.explore fuel [] root .nothing = .ok f) ↔ s.Fit root := by
  have h := explore_root hb hfuel
  constructor
  · rintro ⟨f, hf⟩
    rw [hf] at h
    obtain ⟨order, -, hholds, hroot⟩ := h
    exact hholds.fit hb hroot
  · intro hfit
    cases hf : s.explore fuel [] root .nothing with
    | ok f => exact ⟨f, rfl⟩
    | error e =>
      rw [hf] at h
      exact absurd hfit h.not_fit

end

end Survey

end Arbor.Package
