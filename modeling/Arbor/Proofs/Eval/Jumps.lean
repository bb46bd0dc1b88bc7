import Arbor.Proofs.Eval.Soundness

/-!
Returns and breaks are never taken for failures.

A return or break that is still under way where a failure is expected would become a failure with a
`stray` cause. The rules turn both into something else before that: a function takes its returns and
fails on a break, and so does a whole evaluation. No handler can make such a failure up, and what it
says of a host that it passes on only failures of a certain kind is `Action.FailsIn`.

* `Evals.clear`, `Calls.clear`: no run ends with a stray jump.
* `Settled`: what an evaluation and a call show of their end.
-/

set_option autoImplicit false

namespace Arbor

variable {σ α β : Type}

theorem Value.orNone_ne_missing (v : Value) : v.orNone ≠ .missing := by
  cases v <;> exact nofun

/-! ## Failures that carry a jump -/

/-- The failure stems from a return or a break. -/
def Failure.Jumps (f : Failure) : Prop := ∃ j, f.cause = some (.stray j)

@[simp] theorem Failure.jumps_wrap (f : Failure) (l : Layer) : (f.wrap l).Jumps ↔ f.Jumps := .rfl

@[simp] theorem Failure.jumps_locate (f : Failure) (stack : List Path) :
    (f.locate stack).Jumps ↔ f.Jumps := by
  unfold Failure.locate
  split <;> rfl

@[simp] theorem Failure.jumps_ofCause (c : Cause) :
    (Failure.ofCause c).Jumps ↔ ∃ j, c = .stray j := by
  constructor
  · rintro ⟨j, hj⟩
    exact ⟨j, Option.some.inj hj⟩
  · rintro ⟨j, rfl⟩
    exact ⟨j, rfl⟩

theorem Registry.acquire_jumpless {r : Registry} {path : Path} {held : Held} {c : Cause}
    (h : r.acquire path held = .error c) : ¬ (Failure.ofCause c).Jumps := by
  obtain rfl | rfl | rfl := Registry.acquire_error h <;> simp

/-! ## Handlers -/

/-- The handler fails only in ways that `F` allows, as long as it is told only of such failures; what
it leaves behind in the state of the host, and relies on there, is `I`. -/
def Action.FailsIn (I : σ → Prop) (F : Failure → Prop) : Action σ → Prop
  | .reply _ => True
  | .refuse x => F x
  | .get next => ∀ host, I host → (next host).FailsIn I F
  | .put host next => I host ∧ next.FailsIn I F
  | .list vs next => ∀ h, (next (.list h vs)).FailsIn I F
  | .object fs next => ∀ h, (next (.object h fs)).FailsIn I F
  | .call _ _ next => ∀ r, (∀ x, r = .error x → F x) → (next r).FailsIn I F
  | .evaluate _ next => ∀ r, (∀ x, r = .error x → F x) → (next r).FailsIn I F
  | .acquire _ next => ∀ r, (∀ c, r = .error c → F (.ofCause c)) → (next r).FailsIn I F
  | .release _ next => next.FailsIn I F

/-- The handlers make up no returns and no breaks. -/
def Machine.Jumpless (m : Machine σ) (I : σ → Prop) : Prop :=
  ∀ id vs, (m.handlers id vs).FailsIn I fun x => ¬ x.Jumps

/-! ## Runs -/

/-- The end of a run: no stray jump, and the state of the host is as handlers rely on it. -/
structure Clear (I : σ → Prop) (r : Except Stop α) (w : World σ) : Prop where
  host : I w.host
  failure : ∀ x, r = .error (.fail x) → ¬ x.Jumps

namespace Clear

variable {I : σ → Prop} {w : World σ}

theorem ok {a : α} (h : I w.host) : Clear I (.ok a) w := ⟨h, fun _ hx => by cases hx⟩

theorem ret {v : Value} (h : I w.host) : Clear (α := α) I (.error (.ret v)) w :=
  ⟨h, fun _ hx => by cases hx⟩

theorem brk {v : Value} (h : I w.host) : Clear (α := α) I (.error (.brk v)) w :=
  ⟨h, fun _ hx => by cases hx⟩

theorem fail {f : Failure} (h : I w.host) (hf : ¬ f.Jumps) :
    Clear (α := α) I (.error (.fail f)) w := by
  refine ⟨h, fun x hx => ?_⟩
  cases hx
  exact hf

theorem raise {c : Cause} (h : I w.host) (hc : ¬ (Failure.ofCause c).Jumps) :
    Clear (α := α) I (Stop.raise c) w :=
  fail h hc

theorem stop {x : Stop} (h : Clear I (.error x : Except Stop α) w) :
    Clear I (.error x : Except Stop β) w :=
  ⟨h.host, fun y hy => h.failure y (by cases hy; rfl)⟩

theorem settle {r : Outcome} (h : Clear I r w) (stack : List Path) :
    ∀ x, settle stack r = .error x → ¬ x.Jumps := by
  intro x hx
  match r, h, hx with
  | .error (.ret v), _, hx =>
    cases hx
    simp
  | .error (.brk v), _, hx =>
    cases hx
    simp
  | .error (.fail f), h, hx =>
    cases hx
    rw [Failure.jumps_locate]
    exact h.failure f rfl

end Clear

namespace Machine

variable {m : Machine σ} {I : σ → Prop}

mutual

theorem Evals.clear (hm : m.Jumpless I) {e : Expr} {s t : State σ} {r : Outcome} :
    Evals m e s r t → I s.world.host → Clear I r t.world
  | .absent, hs => .ok hs
  | .emptyBlock, hs => .ok hs
  | .empty _, hs => .raise hs (by simp)
  | .string, hs => .ok hs
  | .integer, hs => .ok hs
  | .float, hs => .ok hs
  | .bool, hs => .ok hs
  | .var _, hs => .ok hs
  | .unbound _, hs => .raise hs (by simp)
  | .assign he _, hs => .ok (he.clear hm hs).host
  | .assignNowhere he _, hs => .raise (he.clear hm hs).host (by simp)
  | .assignStop he, hs => he.clear hm hs
  | .block hes, hs => .ok (hes.clear hm hs).host
  | .blockStop hes, hs => (hes.clear hm hs).stop
  | .list hes, hs => .ok (hes.clear hm hs).host
  | .listStop hes, hs => (hes.clear hm hs).stop
  | .map hes, hs => .ok (hes.clear hm hs).host
  | .mapStop hes, hs => (hes.clear hm hs).stop
  | .call hes hc, hs => hc.clear hm (hes.clear hm hs).host
  | .callStop hes, hs => (hes.clear hm hs).stop
  | .condTrue ht ha, hs => ha.clear hm (ht.clear hm hs).host
  | .condFalse ht hb, hs => hb.clear hm (ht.clear hm hs).host
  | .condOther ht _, hs => .raise (ht.clear hm hs).host (by simp [Value.mismatch])
  | .condStop ht, hs => ht.clear hm hs
  | .loopAgain hb hl, hs => hl.clear hm (hb.clear hm hs).host
  | .loopBreak hb, hs => .ok (hb.clear hm hs).host
  | .loopReturn hb, hs => hb.clear hm hs
  | .loopFail hb, hs => hb.clear hm hs
  | .ret he, hs => .ret (he.clear hm hs).host
  | .retStop he, hs => he.clear hm hs
  | .brk he, hs => .brk (he.clear hm hs).host
  | .brkStop he, hs => he.clear hm hs

theorem InOrder.clear (hm : m.Jumpless I) {es : List Expr} {s t : State σ}
    {r : Except Stop (List Value)} : InOrder m es s r t → I s.world.host → Clear I r t.world
  | .nil, hs => .ok hs
  | .cons he hes, hs => .ok (hes.clear hm (he.clear hm hs).host).host
  | .later he hes, hs => hes.clear hm (he.clear hm hs).host
  | .stop he, hs => (he.clear hm hs).stop

theorem Calls.clear (hm : m.Jumpless I) {path : Path} {vs : List Value} {s t : State σ}
    {r : Outcome} : Calls m path vs s r t → I s.world.host → Clear I r t.world
  | .unavailable hc, hs => by
    refine .fail hs ?_
    rw [Failure.jumps_locate]
    exact Registry.acquire_jumpless hc
  | .returns hf ha, hs => by
    have h := ha.clear hm (by rwa [enter_host])
    refine .ok ?_
    rw [leave_host]
    exact h.host
  | .fails hf ha, hs => by
    have h := ha.clear hm (by rwa [enter_host])
    refine .fail ?_ ?_
    · rw [leave_host]
      exact h.host
    · rw [Failure.jumps_locate]
      exact h.failure _ rfl

theorem Applies.clear (hm : m.Jumpless I) {name : String} {f : Function} {vs : List Value}
    {s t : State σ} {r : Outcome} : Applies m name f vs s r t → I s.world.host → Clear I r t.world
  | .definedArity _, hs => .raise hs (by simp)
  | .bodyless _, hs => .ok hs
  | .plain _ hes, hs => .ok (hes.clear hm hs).host
  | .returned _ hes, hs => .ok (hes.clear hm hs).host
  | .broke _ hes, hs => .raise (hes.clear hm hs).host (by simp)
  | .failed _ hes, hs => (hes.clear hm hs).stop
  | .nativeArity _, hs => .raise hs (by simp)
  | .unhandled _, hs => .raise hs (by simp)
  | .replied _ hp, hs => .ok (hp.clear hm (hm _ _) hs).1
  | .refused _ hp, hs => by
    obtain ⟨hhost, hx⟩ := hp.clear hm (hm _ _) hs
    refine .fail hhost ?_
    rw [Failure.jumps_wrap]
    exact hx _ rfl
  | .imported, hs => .raise hs (by simp)

theorem Performs.clear (hm : m.Jumpless I) {a : Action σ} {w w' : World σ}
    {r : Except Failure Value} : Performs m a w r w' → a.FailsIn I (fun x => ¬ x.Jumps) →
      I w.host → I w'.host ∧ ∀ x, r = .error x → ¬ x.Jumps
  | .reply, _, hw => ⟨hw, fun _ hx => by cases hx⟩
  | .refuse, ha, hw => by
    refine ⟨hw, fun x hx => ?_⟩
    cases hx
    exact ha
  | .get h, ha, hw => h.clear hm (ha _ hw) hw
  -- what the state was before no longer matters
  | .put h, ha, _ => h.clear hm ha.2 ha.1
  | .list h, ha, hw => h.clear hm (ha _) hw
  | .object h, ha, hw => h.clear hm (ha _) hw
  | .call hc h, ha, hw => by
    have hx := hc.clear hm hw
    exact h.clear hm (ha _ (hx.settle _)) hx.host
  | .evaluate he h, ha, hw => by
    have hx := he.clear hm hw
    exact h.clear hm (ha _ (hx.settle _)) hx.host
  | .acquire _ h, ha, hw => h.clear hm (ha _ fun _ hc => by cases hc) hw
  | .acquireRefused hc h, ha, hw => by
    refine h.clear hm (ha _ fun c hc' => ?_) hw
    cases hc'
    exact Registry.acquire_jumpless hc
  | .release h, ha, hw => h.clear hm ha hw

end

/-! ## What is shown of the end -/

/-- A value that is there, or a failure on which the active calls are recorded and no jump. -/
inductive Settled : Except Failure Value → Prop where
  | value {v : Value} : v ≠ .missing → Settled (.ok v)
  | failure {x : Failure} : x.isLocated = true → ¬ x.Jumps → Settled (.error x)

theorem settled_of_clear {r : Outcome} {w : World σ} (h : Clear I r w) (stack : List Path) :
    Settled (settle stack r) := by
  have hjumps := h.settle stack
  match r with
  | .ok v => exact .value v.orNone_ne_missing
  | .error (.ret v) => exact .failure (Failure.isLocated_locate _ _) (hjumps _ rfl)
  | .error (.brk v) => exact .failure (Failure.isLocated_locate _ _) (hjumps _ rfl)
  | .error (.fail f) => exact .failure (Failure.isLocated_locate _ _) (hjumps _ rfl)

end Machine

end Arbor
