import Arbor.Proofs.Eval.Handles
import Arbor.Session
import Mathlib.Data.List.Nodup

/-!
Who holds a native function in a session.

A session goes through any number of operations: modules are registered, functions are found,
invoked through their handles and given free, expressions are evaluated and functions called. The
lock of a function and the mark on a handle are kept apart, and `Session.Balanced` says that they
stay together: what is in use is what the locked handles keep, each function once. Each operation
keeps this (`Step.balanced`), so that it holds in every session that can come about; `Exclusive`
lists what follows from it.
-/

set_option autoImplicit false

namespace Arbor

variable {σ : Type}

/-- The native functions that a handle keeps in use. -/
def Grip.keeps (g : Grip) : Held := if g.locked then g.function.locks else []

/-- The handle was acquired and not yet released, and the function is its function. -/
def Grip.Holds (g : Grip) (id : NativeId) : Prop := g.locked = true ∧ id ∈ g.function.locks

theorem Grip.mem_keeps {g : Grip} {id : NativeId} : id ∈ g.keeps ↔ g.Holds id := by
  unfold Grip.keeps Grip.Holds
  cases g.locked <;> simp

namespace Session

/-! ## Operations -/

/-- One operation takes a session to another. -/
inductive Step : Session σ → Session σ → Prop where
  | register {s : Session σ} (l : Library) : Step s (s.register l)
  | load {s : Session σ} (name : String) (m : Option Module) : Step s (s.load name m)
  | find {s t : Session σ} {path : Path} {g : Grip} : s.find path = .ok (g, t) → Step s t
  | invoke {s t : Session σ} {slot fuel : Nat} {g : Grip} {vs : List Value}
      {r : Except Failure Value} :
      s.grips[slot]? = some g → s.invoke fuel g vs = some (r, t) → Step s t
  | release {s : Session σ} (slot : Nat) : Step s (s.release slot)
  | evaluate {s t : Session σ} {fuel : Nat} {e : Expr} {r : Except Failure Value} :
      s.evaluate fuel e = some (r, t) → Step s t
  | call {s t : Session σ} {fuel : Nat} {path : Path} {vs : List Value}
      {r : Except Failure Value} : s.call fuel path vs = some (r, t) → Step s t
  | takeEvents {s : Session σ} : Step s s.takeEvents.2

/-- The moment at which an operation that runs something begins. -/
inductive Begins (s : Session σ) : Moment σ → Prop where
  | evaluate (e : Expr) : Begins s (.expr e (State.start s.world))
  | call (path : Path) (vs : List Value) : Begins s (.call path vs (State.start s.world))
  | invoke {g : Grip} (vs : List Value) : g ∈ s.grips → g.function.kind ≠ .defined →
      Begins s (.run g.path.item g.function vs (State.start s.world))

/-! ## The invariant -/

/-- What the handles keep, each entry for one of them. -/
def kept (s : Session σ) : Held := s.grips.flatMap Grip.keeps

/-- The functions in use are those that the handles keep, each once. -/
structure Balanced (s : Session σ) : Prop where
  tidy : s.machine.Tidy
  perm : s.world.held.Perm s.kept
  nodup : s.world.held.Nodup

theorem balanced_start (registry : Registry) {handlers : Handlers σ}
    (h : ∀ id vs, (handlers id vs).Frees []) (traced : Bool) (host : σ) :
    (start registry handlers traced host).Balanced :=
  ⟨h, .refl [], List.nodup_nil⟩

/-- An operation that changes neither the handlers nor what is in use nor the handles. -/
theorem Balanced.of_same {s t : Session σ} (h : s.Balanced)
    (hhandlers : t.machine.handlers = s.machine.handlers) (hheld : t.world.held = s.world.held)
    (hgrips : t.grips = s.grips) : t.Balanced where
  tidy := by
    intro id vs
    rw [hhandlers]
    exact h.tidy id vs
  perm := by
    unfold kept
    rw [hheld, hgrips]
    exact h.perm
  nodup := by
    rw [hheld]
    exact h.nodup

/-! ## Running something -/

theorem eq_of_ran {s t : Session σ} {x : Option (Except Failure Value × World σ)}
    {r : Except Failure Value}
    (h : x.map (fun p => (p.1, { s with world := p.2 })) = some (r, t)) :
    ∃ w, x = some (r, w) ∧ t = { s with world := w } := by
  obtain ⟨⟨r', w⟩, hx, hp⟩ := Option.map_eq_some_iff.1 h
  cases hp
  exact ⟨w, hx, rfl⟩

theorem held_of_evaluate {s t : Session σ} (hm : s.machine.Tidy) {fuel : Nat} {e : Expr}
    {r : Except Failure Value} (h : s.evaluate fuel e = some (r, t)) :
    t.world.held = s.world.held := by
  obtain ⟨w, hw, rfl⟩ := eq_of_ran h
  obtain ⟨x, u, hx, -, rfl⟩ := Machine.apart_eq_some.1 hw
  exact (((Machine.sound s.machine fuel).eval hx).kept hm).held

theorem held_of_call {s t : Session σ} (hm : s.machine.Tidy) {fuel : Nat} {path : Path}
    {vs : List Value} {r : Except Failure Value} (h : s.call fuel path vs = some (r, t)) :
    t.world.held = s.world.held := by
  obtain ⟨w, hw, rfl⟩ := eq_of_ran h
  obtain ⟨x, u, hx, -, rfl⟩ := Machine.apart_eq_some.1 hw
  exact (((Machine.sound s.machine fuel).call hx).restored hm).held

theorem held_of_runAlone {m : Machine σ} (hm : m.Tidy) {fuel : Nat} {name : String}
    {vs : List Value} {f : Function} {w w' : World σ} {r : Except Failure Value}
    (h : runAlone m fuel name vs f w = some (r, w')) : w'.held = w.held := by
  unfold runAlone at h
  split at h
  · cases h
    rfl
  · split at h
    · cases h
    · next hr =>
      cases h
      exact (((Machine.sound m fuel).run hr).restored hm).held
    · next hr =>
      cases h
      exact (((Machine.sound m fuel).run hr).restored hm).held

theorem held_of_invoke {s t : Session σ} (hm : s.machine.Tidy) {fuel : Nat} {g : Grip}
    {vs : List Value} {r : Except Failure Value} (h : s.invoke fuel g vs = some (r, t)) :
    t.world.held = s.world.held := by
  obtain ⟨w, hw, rfl⟩ := eq_of_ran h
  exact held_of_runAlone hm hw

/-! ## Finding and releasing -/

theorem find_error_iff {s : Session σ} {path : Path} {c : Cause} :
    s.find path = .error c ↔ s.machine.registry.acquire path s.world.held = .error c := by
  unfold find
  cases s.machine.registry.acquire path s.world.held with
  | error c' => constructor <;> (intro h; cases h; rfl)
  | ok p => exact iff_of_false nofun nofun

theorem find_ok {s t : Session σ} {path : Path} {g : Grip} (h : s.find path = .ok (g, t)) :
    ∃ held, s.machine.registry.acquire path s.world.held = .ok (g.function, held) ∧
      g = ⟨g.function, path, g.function.kind == .native⟩ ∧
      t = { s with world := { s.world with held := held }, grips := s.grips ++ [g] } := by
  unfold find at h
  cases ha : s.machine.registry.acquire path s.world.held with
  | error c =>
    rw [ha] at h
    cases h
  | ok p =>
    rw [ha] at h
    cases h
    exact ⟨p.2, rfl, rfl, rfl⟩

theorem keeps_found (f : Function) (path : Path) :
    Grip.keeps ⟨f, path, f.kind == .native⟩ = f.locks := by
  cases f <;> rfl

theorem Balanced.find {s t : Session σ} {path : Path} {g : Grip} (h : s.Balanced)
    (hf : s.find path = .ok (g, t)) : t.Balanced := by
  obtain ⟨held, ha, hg, rfl⟩ := find_ok hf
  refine ⟨h.tidy, ?_, Registry.acquire_nodup ha h.nodup⟩
  have hkeeps : g.keeps = g.function.locks := hg ▸ keeps_found g.function path
  have hkept : (s.grips ++ [g]).flatMap Grip.keeps = s.kept ++ g.function.locks := by
    rw [List.flatMap_append, List.flatMap_singleton, hkeeps]
    rfl
  rw [kept, hkept]
  change held.Perm _
  rw [Registry.acquire_eq ha]
  exact (h.perm.append_left g.function.locks).trans List.perm_append_comm

theorem release_locked {s : Session σ} {slot : Nat} {g : Grip} (hg : s.grips[slot]? = some g)
    (hl : g.locked = true) : s.release slot = { s with
      world := { s.world with held := g.function.release s.world.held }
      grips := s.grips.set slot { g with locked := false } } := by
  unfold release
  rw [hg]
  exact if_pos hl

theorem release_unlocked {s : Session σ} {slot : Nat} {g : Grip} (hg : s.grips[slot]? = some g)
    (hl : g.locked = false) : s.release slot = s := by
  unfold release
  rw [hg]
  exact if_neg (hl ▸ Bool.false_ne_true)

theorem release_missing {s : Session σ} {slot : Nat} (hg : s.grips[slot]? = none) :
    s.release slot = s := by
  unfold release
  rw [hg]

theorem kept_locked {s : Session σ} {slot : Nat} {g : Grip} (hg : s.grips[slot]? = some g)
    (hl : g.locked = true) :
    s.kept.Perm (g.function.locks ++ ((s.grips.take slot).flatMap Grip.keeps ++
      (s.grips.drop (slot + 1)).flatMap Grip.keeps)) := by
  obtain ⟨hlt, rfl⟩ := List.getElem?_eq_some_iff.1 hg
  have hsplit : s.grips = s.grips.take slot ++ s.grips[slot] :: s.grips.drop (slot + 1) := by
    rw [← List.drop_eq_getElem_cons hlt, List.take_append_drop]
  have hkeeps : s.grips[slot].keeps = s.grips[slot].function.locks := if_pos hl
  unfold kept
  conv_lhs => rw [hsplit, List.flatMap_append, List.flatMap_cons, hkeeps]
  exact List.perm_append_comm_assoc ..

theorem keeps_set {grips : List Grip} {slot : Nat} {g : Grip} (hlt : slot < grips.length)
    (hg : g.keeps = []) :
    (grips.set slot g).flatMap Grip.keeps = (grips.take slot).flatMap Grip.keeps ++
      (grips.drop (slot + 1)).flatMap Grip.keeps := by
  rw [List.set_eq_take_append_cons_drop, if_pos hlt, List.flatMap_append, List.flatMap_cons, hg,
    List.nil_append]

theorem Balanced.release {s : Session σ} (h : s.Balanced) (slot : Nat) :
    (s.release slot).Balanced := by
  cases hg : s.grips[slot]? with
  | none =>
    rw [release_missing hg]
    exact h
  | some g =>
    cases hl : g.locked with
    | false =>
      rw [release_unlocked hg hl]
      exact h
    | true =>
      rw [release_locked hg hl]
      refine ⟨h.tidy, ?_, g.function.release_nodup h.nodup⟩
      have hlt : slot < s.grips.length := (List.getElem?_eq_some_iff.1 hg).1
      have hheld := g.function.release_perm (h.perm.trans (kept_locked hg hl))
      rw [Function.release_locks] at hheld
      rw [kept, keeps_set hlt rfl]
      exact hheld

/-! ## Any number of operations -/

theorem Step.balanced {s t : Session σ} (h : s.Balanced) (hst : Step s t) : t.Balanced := by
  cases hst with
  | register l => exact h.of_same rfl rfl rfl
  | load name m => exact h.of_same rfl rfl rfl
  | takeEvents => exact h.of_same rfl rfl rfl
  | find hf => exact h.find hf
  | release slot => exact h.release slot
  | invoke hg hr =>
    have hheld := held_of_invoke h.tidy hr
    obtain ⟨w, -, rfl⟩ := eq_of_ran hr
    exact h.of_same rfl hheld rfl
  | evaluate hr =>
    have hheld := held_of_evaluate h.tidy hr
    obtain ⟨w, -, rfl⟩ := eq_of_ran hr
    exact h.of_same rfl hheld rfl
  | call hr =>
    have hheld := held_of_call h.tidy hr
    obtain ⟨w, -, rfl⟩ := eq_of_ran hr
    exact h.of_same rfl hheld rfl

theorem Balanced.steps {s t : Session σ} (h : s.Balanced) (hst : Relation.ReflTransGen Step s t) :
    t.Balanced := by
  induction hst with
  | refl => exact h
  | tail _ hl ih => exact hl.balanced ih

theorem Step.grip {s t : Session σ} {slot : Nat} {g : Grip} (hst : Step s t)
    (hg : s.grips[slot]? = some g) : t.grips[slot]? = some g ∨ t = s.release slot := by
  cases hst with
  | register l => exact .inl hg
  | load name m => exact .inl hg
  | takeEvents => exact .inl hg
  | find hf =>
    obtain ⟨held, -, -, rfl⟩ := find_ok hf
    exact .inl (List.getElem?_append_left (List.getElem?_eq_some_iff.1 hg).1 ▸ hg)
  | release slot' =>
    by_cases hslot : slot' = slot
    · exact .inr (hslot ▸ rfl)
    · refine .inl ?_
      cases hg' : s.grips[slot']? with
      | none => rw [release_missing hg', hg]
      | some g' =>
        cases hl : g'.locked with
        | false => rw [release_unlocked hg' hl, hg]
        | true =>
          rw [release_locked hg' hl]
          exact (List.getElem?_set_ne hslot).trans hg
  | invoke _ hr | evaluate hr | call hr =>
    obtain ⟨w, -, rfl⟩ := eq_of_ran hr
    exact .inl hg

theorem release_grip {s : Session σ} {slot : Nat} (h : slot < s.grips.length) :
    ∃ g, (s.release slot).grips[slot]? = some g ∧ g.locked = false := by
  have hg : s.grips[slot]? = some s.grips[slot] := List.getElem?_eq_getElem h
  cases hl : s.grips[slot].locked with
  | false => exact ⟨_, by rw [release_unlocked hg hl, hg], hl⟩
  | true =>
    rw [release_locked hg hl]
    exact ⟨_, List.getElem?_set_self h, rfl⟩

theorem grip_unlocked {s t : Session σ} {slot : Nat} {g : Grip}
    (hst : Relation.ReflTransGen Step s t) (hg : s.grips[slot]? = some g)
    (hl : g.locked = false) : t.grips[slot]? = some g := by
  induction hst with
  | refl => exact hg
  | tail _ hstep ih =>
    rcases hstep.grip ih with h | rfl
    · exact h
    · rw [release_unlocked ih hl]
      exact ih

/-! ## What follows -/

/-- Some handle holds the function. -/
def InUse (s : Session σ) (id : NativeId) : Prop := ∃ g ∈ s.grips, g.Holds id

theorem mem_kept {s : Session σ} {id : NativeId} : id ∈ s.kept ↔ s.InUse id := by
  simp only [kept, InUse, List.mem_flatMap, Grip.mem_keeps]

theorem Balanced.mem_held {s : Session σ} (h : s.Balanced) {id : NativeId} :
    id ∈ s.world.held ↔ s.InUse id :=
  h.perm.mem_iff.trans mem_kept

theorem Balanced.single {s : Session σ} (h : s.Balanced) {i j : Nat} {g g' : Grip} {id : NativeId}
    (hi : s.grips[i]? = some g) (hj : s.grips[j]? = some g') (hg : g.Holds id)
    (hg' : g'.Holds id) : i = j := by
  have hkept : s.kept.Nodup := h.perm.nodup_iff.1 h.nodup
  have hpair := List.pairwise_iff_getElem.1 (List.nodup_flatMap.1 hkept).2
  obtain ⟨hi', rfl⟩ := List.getElem?_eq_some_iff.1 hi
  obtain ⟨hj', rfl⟩ := List.getElem?_eq_some_iff.1 hj
  rcases lt_trichotomy i j with hlt | heq | hlt
  · exact absurd (Grip.mem_keeps.2 hg') (hpair i j hi' hj' hlt (Grip.mem_keeps.2 hg))
  · exact heq
  · exact absurd (Grip.mem_keeps.2 hg) (hpair j i hj' hi' hlt (Grip.mem_keeps.2 hg'))

theorem Balanced.mem_released {s : Session σ} (h : s.Balanced) {slot : Nat} {g : Grip}
    {id : NativeId} (hg : s.grips[slot]? = some g) (hid : g.Holds id) (j : NativeId) :
    j ∈ (s.release slot).world.held ↔ j ∈ s.world.held ∧ j ≠ id := by
  rw [release_locked hg hid.1]
  change j ∈ g.function.release s.world.held ↔ _
  rw [Function.release_of_mem hid.2, h.nodup.mem_erase_iff, and_comm]

/-- The moment of a run in the session at which `taken` are the functions of the handles that the
run has opened itself and not closed. -/
structure Within (s : Session σ) (b : Moment σ) (taken : Held) : Prop where
  single : (taken ++ s.kept).Nodup
  held_iff : ∀ id, id ∈ b.world.held ↔ id ∈ taken ∨ s.InUse id
  refused_iff : ∀ {path : Path} {f : Function}, s.machine.registry.resolve path = .ok f → ∀ c,
    s.machine.registry.acquire path b.world.held = .error c ↔
      c = .reentrant path ∧ ∃ id ∈ f.locks, id ∈ taken ∨ s.InUse id

theorem Begins.world {s : Session σ} {a : Moment σ} (h : s.Begins a) : a.world = s.world := by
  cases h <;> rfl

theorem Begins.owes {s : Session σ} {a : Moment σ} (h : s.Begins a) : Machine.Owes a [] := by
  cases h <;> trivial

theorem Balanced.within {s : Session σ} (h : s.Balanced) {a b : Moment σ} {taken : Held}
    (ha : s.Begins a) (hb : Machine.Opens s.machine a b taken) : s.Within b taken := by
  have hheld : b.world.held = taken ++ s.world.held :=
    ha.world ▸ (hb.invariant h.tidy ha.owes).1
  have hnodup : b.world.held.Nodup := hb.nodup h.tidy (ha.world ▸ h.nodup)
  have hmem : ∀ id, id ∈ b.world.held ↔ id ∈ taken ∨ s.InUse id := by
    intro id
    rw [hheld, List.mem_append, h.mem_held]
  refine ⟨?_, hmem, ?_⟩
  · rw [hheld] at hnodup
    exact (h.perm.append_left taken).nodup_iff.1 hnodup
  · intro path f hf c
    simp only [Registry.acquire_error_iff hf, hmem]

/-- Native functions are held by their handles, one at a time. -/
structure Exclusive (s : Session σ) : Prop where
  /-- No function has two handles that hold it. -/
  single : ∀ {i j : Nat} {g g' : Grip} {id : NativeId}, s.grips[i]? = some g →
    s.grips[j]? = some g' → g.Holds id → g'.Holds id → i = j
  held_iff : ∀ id, id ∈ s.world.held ↔ s.InUse id
  /-- Of the functions that there are, only a native one that is held is refused. -/
  refused_iff : ∀ {path : Path} {f : Function}, s.machine.registry.resolve path = .ok f → ∀ c,
    s.find path = .error c ↔ c = .reentrant path ∧ ∃ id ∈ f.locks, s.InUse id
  found : ∀ {path : Path} {g : Grip} {t : Session σ}, s.find path = .ok (g, t) →
    s.machine.registry.resolve path = .ok g.function ∧ t.grips = s.grips ++ [g] ∧
      ∀ id, g.Holds id ↔ id ∈ g.function.locks
  /-- Only its own release changes a handle. -/
  stays : ∀ {t : Session σ} {slot : Nat} {g : Grip}, Step s t → s.grips[slot]? = some g →
    t.grips[slot]? = some g ∨ t = s.release slot
  /-- A release gives its own function free and no other. -/
  released : ∀ {slot : Nat} {g : Grip} {id : NativeId}, s.grips[slot]? = some g → g.Holds id →
    ∀ j, j ∈ (s.release slot).world.held ↔ j ∈ s.world.held ∧ j ≠ id
  /-- Once released, a handle never changes anything again, whatever happens in between. -/
  spent : ∀ {t : Session σ} {slot : Nat}, slot < s.grips.length →
    Relation.ReflTransGen Step (s.release slot) t → t.release slot = t
  evaluated : ∀ {fuel : Nat} {e : Expr} {r : Except Failure Value} {t : Session σ},
    s.evaluate fuel e = some (r, t) → t.world.held = s.world.held
  called : ∀ {fuel : Nat} {path : Path} {vs : List Value} {r : Except Failure Value}
    {t : Session σ}, s.call fuel path vs = some (r, t) → t.world.held = s.world.held
  /-- Every moment of a run has its list of open handles. -/
  followed : ∀ {a b : Moment σ}, s.Begins a → Machine.Reaches s.machine a b →
    ∃ taken, Machine.Opens s.machine a b taken
  within : ∀ {a b : Moment σ} {taken : Held}, s.Begins a → Machine.Opens s.machine a b taken →
    s.Within b taken

theorem exclusive_of_steps (registry : Registry) (handlers : Handlers σ)
    (hhandlers : ∀ id vs, (handlers id vs).Frees []) (traced : Bool) (host : σ) {s : Session σ}
    (hs : Relation.ReflTransGen Step (start registry handlers traced host) s) : s.Exclusive := by
  have h : s.Balanced := (balanced_start registry hhandlers traced host).steps hs
  exact {
    single := h.single
    held_iff := fun id => h.mem_held
    refused_iff := by
      intro path f hf c
      simp only [find_error_iff, Registry.acquire_error_iff hf, h.mem_held]
    found := by
      intro path g t hfind
      obtain ⟨held, ha, hg, rfl⟩ := find_ok hfind
      refine ⟨Registry.resolve_of_acquire ha, rfl, ?_⟩
      intro id
      rw [← Grip.mem_keeps, hg, keeps_found]
    stays := Step.grip
    released := h.mem_released
    spent := by
      intro t slot hslot hst
      obtain ⟨g, hg, hl⟩ := release_grip hslot
      exact release_unlocked (grip_unlocked hst hg hl) hl
    evaluated := held_of_evaluate h.tidy
    called := held_of_call h.tidy
    followed := fun _ => Machine.opens_of_reaches
    within := h.within }

/-- A function is found and released, found again, its module is replaced, and an evaluation runs;
then the first handle is released once more. -/
theorem exclusive_of_steps_replaced :
    let start : Session Nat := .start Machine.sample.registry Machine.sample.handlers false 0
    let grip : Bool → Grip := fun locked => ⟨.native 1 0 true, ⟨"m", "h"⟩, locked⟩
    ∃ s : Session Nat, Relation.ReflTransGen Step start s ∧ s.grips = [grip false, grip true] ∧
      s.machine.registry.resolve ⟨"m", "h"⟩ = .error (.unboundFunction ⟨"m", "h"⟩) ∧
      s.world.held = [1] ∧ (s.release 0).world.held = [1] ∧ (s.release 1).world.held = [] ∧
      s.Exclusive := by
  intro start grip
  let other : Library := ⟨"m", [("k", .native 0 0 false)], []⟩
  let held : Session Nat := { start with world := ⟨0, [1], 0, []⟩, grips := [grip true] }
  let again : Session Nat := { held with grips := [grip false, grip true] }
  let replaced : Session Nat := again.register other
  have hfind : start.find ⟨"m", "h"⟩ = .ok (grip true, held) := rfl
  have hagain : (held.release 0).find ⟨"m", "h"⟩ = .ok (grip true, again) := rfl
  have hrun : replaced.evaluate 9 (.list [.bool true]) =
      some (.ok (.list 0 [.bool true]), { replaced with world := ⟨0, [1], 1, []⟩ }) := rfl
  have hs : Relation.ReflTransGen Step start { replaced with world := ⟨0, [1], 1, []⟩ } :=
    (((((Relation.ReflTransGen.refl.tail (.find hfind)).tail (.release 0)).tail
      (.find hagain)).tail (.register other)).tail (.evaluate hrun)).tail (.release 0)
  exact ⟨_, hs, rfl, rfl, rfl, rfl, rfl,
    exclusive_of_steps _ _ Machine.sample_tidy false 0 hs⟩

end Session

end Arbor
