import Arbor.Proofs.Eval.Soundness
import Mathlib.Logic.Relation
import Mathlib.Order.Filter.AtTopBot.Basic

/-!
What the rules derive, the evaluator answers with every large enough amount of fuel (`complete`).
With `sound` this makes evaluator and rules agree: `evaluation_iff_rules`.
-/

set_option autoImplicit false

namespace Arbor.Machine

open Filter

variable {σ : Type} {m : Machine σ}

/-! ## Answers in the long run -/

/-- One step more does not matter in the long run. -/
theorem eventually_of_succ {γ : Type} {c : Nat → γ} {x : γ} (h : ∀ᶠ n in atTop, c (n + 1) = x) :
    ∀ᶠ n in atTop, c n = x := by
  obtain ⟨k, hk⟩ := eventually_atTop.1 h
  refine eventually_atTop.2 ⟨k + 1, fun n hn => ?_⟩
  obtain ⟨j, rfl⟩ : ∃ j, n = j + 1 := ⟨n - 1, by omega⟩
  exact hk j (by omega)

/-- The answers that expressions in order lead to: as a block, as elements and as entries. -/
structure Answers (m : Machine σ) (es : List Expr) (s : State σ) (r : Except Stop (List Value))
    (t : State σ) : Prop where
  block : ∀ last, ∀ᶠ n in atTop, m.evalBlock n last es s = some (r.map (·.getLastD last), t)
  all : ∀ᶠ n in atTop, m.evalAll n es s = some (r, t)
  entries : ∀ entries fields, entries.filterMap Entry.value? = es →
    ∀ᶠ n in atTop, m.evalEntries n fields entries s = some (r.map (fieldsOf fields entries), t)

theorem entries_nil (s : State σ) : ∀ (entries : List Entry) (fields : Table Value),
    entries.filterMap Entry.value? = [] →
    ∀ᶠ n in atTop, m.evalEntries n fields entries s = some (.ok (fieldsOf fields entries []), s)
  | [], fields, _ => eventually_of_succ (.of_forall fun n => by rw [evalEntries]; rfl)
  | .blank :: entries, fields, h => by
    apply eventually_of_succ
    filter_upwards [entries_nil s entries fields h] with n hn
    rw [evalEntries, hn]
    rfl
  | .field key e :: entries, fields, h => by
    cases h

/-- Blank entries may come before the first entry that has an expression. -/
theorem entries_cons {e : Expr} {es : List Expr} {s t : State σ} {r : Except Stop (List Value)}
    (first : ∀ key entries fields, entries.filterMap Entry.value? = es →
      ∀ᶠ n in atTop, m.evalEntries n fields (.field key e :: entries) s
        = some (r.map (fieldsOf fields (.field key e :: entries)), t)) :
    ∀ (entries : List Entry) (fields : Table Value), entries.filterMap Entry.value? = e :: es →
    ∀ᶠ n in atTop, m.evalEntries n fields entries s = some (r.map (fieldsOf fields entries), t)
  | [], _, h => by cases h
  | .blank :: entries, fields, h => by
    apply eventually_of_succ
    filter_upwards [entries_cons first entries fields h] with n hn
    rw [evalEntries, hn]
    rfl
  | .field key e' :: entries, fields, h => by
    obtain ⟨rfl, htail⟩ := List.cons.inj h
    exact first key entries fields htail

theorem answers_nil (s : State σ) : Answers m [] s (.ok []) s where
  block _ := eventually_of_succ (.of_forall fun n => by rw [evalBlock]; rfl)
  all := eventually_of_succ (.of_forall fun n => by rw [evalAll]; rfl)
  entries := entries_nil s

theorem answers_cons {e : Expr} {es : List Expr} {s t u : State σ} {v : Value}
    {r : Except Stop (List Value)} (he : ∀ᶠ n in atTop, m.eval n e s = some (.ok v, t))
    (hes : Answers m es t r u) : Answers m (e :: es) s (r.map (v :: ·)) u where
  block last := by
    apply eventually_of_succ
    filter_upwards [he, hes.block v] with n h1 h2
    rw [evalBlock, Eval.bind_ok h1, h2]
    cases r with
    | ok vs => simp only [Except.map, List.getLastD_cons]
    | error x => rfl
  all := by
    apply eventually_of_succ
    filter_upwards [he, hes.all] with n h1 h2
    rw [evalAll, Eval.bind_ok h1]
    cases r with
    | ok vs =>
      rw [Eval.bind_ok h2]
      rfl
    | error x =>
      rw [Eval.bind_error h2]
      rfl
  entries := by
    refine entries_cons fun key entries fields htail => eventually_of_succ ?_
    filter_upwards [he, hes.entries entries (Table.insert fields key v) htail] with n h1 h2
    rw [evalEntries, Eval.bind_ok h1, h2]
    cases r <;> rfl

theorem answers_stop {e : Expr} {es : List Expr} {s t : State σ} {x : Stop}
    (he : ∀ᶠ n in atTop, m.eval n e s = some (.error x, t)) :
    Answers m (e :: es) s (.error x) t where
  block last := by
    apply eventually_of_succ
    filter_upwards [he] with n h
    rw [evalBlock, Eval.bind_error h]
    rfl
  all := by
    apply eventually_of_succ
    filter_upwards [he] with n h
    rw [evalAll, Eval.bind_error h]
  entries := by
    refine entries_cons fun key entries fields htail => eventually_of_succ ?_
    filter_upwards [he] with n h
    rw [evalEntries, Eval.bind_error h]
    rfl

/-- What a function makes of its body, once the body has an answer. -/
theorem run_body {name : String} {ps : List String} {es : List Expr} {vs : List Value}
    {s t : State σ} {x : Except Stop (List Value)} (ha : vs.length = ps.length)
    (hes : Answers m es (s.push (Frame.seed ps vs false)) x t) :
    ∀ᶠ n in atTop, m.run n name (.defined ps (some es)) vs s
      = some (boundary name (x.map (·.getLastD .none)), t.pop) := by
  apply eventually_of_succ
  filter_upwards [hes.block .none] with n h
  rw [run_defined_some, checkArity_eq_ok ha, Eval.bind_ok rfl, Eval.inFrame_bind h]
  rfl

/-- What a native function makes of its handler, once the handler has an answer. -/
theorem run_handler {name : String} {id : NativeId} {arity : Nat} {vs : List Value} {s : State σ}
    {r : Except Failure Value} {w : World σ} (ha : vs.length = arity)
    (hp : ∀ᶠ n in atTop, m.perform n (m.handlers id vs) s.world = some (r, w)) :
    ∀ᶠ n in atTop, m.run n name (.native id arity true) vs s
      = some (match r with
        | .ok v => .ok v.orNone
        | .error x => .error (.fail (x.wrap (.native name))), { s with world := w }) := by
  apply eventually_of_succ
  filter_upwards [hp] with n h
  rw [run, checkArity_eq_ok ha, Eval.bind_ok rfl, if_pos rfl,
    Eval.bind_ok (by simp only [Eval.onWorld, h]; rfl)]
  cases r <;> rfl

mutual

theorem Evals.complete {e : Expr} {s t : State σ} {r : Outcome} :
    Evals m e s r t → ∀ᶠ n in atTop, m.eval n e s = some (r, t)
  | .absent | .emptyBlock | .string | .integer | .float | .bool =>
    eventually_of_succ (.of_forall fun n => by rw [eval]; rfl)
  | .empty hb => eventually_of_succ (.of_forall fun n => by
      rw [eval]
      · rfl
      · exact hb)
  | .var hl => eventually_of_succ (.of_forall fun n => by rw [eval, Eval.readName, hl])
  | .unbound hl => eventually_of_succ (.of_forall fun n => by
      rw [eval, Eval.readName, hl]
      rfl)
  | .assign he hi => by
    apply eventually_of_succ
    filter_upwards [he.complete] with n h
    rw [eval, Eval.bind_ok h, Eval.bind_ok (by simp only [Eval.bindName, hi]; rfl)]
    rfl
  | .assignNowhere he hi => by
    apply eventually_of_succ
    filter_upwards [he.complete] with n h
    rw [eval, Eval.bind_ok h, Eval.bind_error (by simp only [Eval.bindName, hi]; rfl)]
    rfl
  | .assignStop he => by
    apply eventually_of_succ
    filter_upwards [he.complete] with n h
    rw [eval, Eval.bind_error h]
  | .block hes | .blockStop hes => by
    apply eventually_of_succ
    filter_upwards [hes.complete.block .none] with n h
    rw [eval, h]
    rfl
  | .list hes => by
    apply eventually_of_succ
    filter_upwards [hes.complete.all] with n h
    rw [eval, Eval.bind_ok h, Eval.bind_ok rfl]
    rfl
  | .listStop hes => by
    apply eventually_of_succ
    filter_upwards [hes.complete.all] with n h
    rw [eval, Eval.bind_error h]
  | .map hes => by
    apply eventually_of_succ
    filter_upwards [hes.complete.entries _ [] rfl] with n h
    rw [eval, Eval.bind_ok h, Eval.bind_ok rfl]
    rfl
  | .mapStop hes => by
    apply eventually_of_succ
    filter_upwards [hes.complete.entries _ [] rfl] with n h
    rw [eval, Eval.bind_error h]
  | .call hes hc => by
    apply eventually_of_succ
    filter_upwards [hes.complete.all, hc.complete] with n h1 h2
    rw [eval, Eval.bind_ok h1, h2]
  | .callStop hes => by
    apply eventually_of_succ
    filter_upwards [hes.complete.all] with n h
    rw [eval, Eval.bind_error h]
  | .condTrue ht ha => by
    apply eventually_of_succ
    filter_upwards [ht.complete, ha.complete] with n h1 h2
    rw [eval, Eval.bind_ok h1, Value.expectTest, Eval.ofCheck, Eval.bind_ok rfl, if_pos rfl, h2]
  | .condFalse ht hb => by
    apply eventually_of_succ
    filter_upwards [ht.complete, hb.complete] with n h1 h2
    rw [eval, Eval.bind_ok h1, Value.expectTest, Eval.ofCheck, Eval.bind_ok rfl,
      if_neg Bool.false_ne_true, h2]
  | .condOther ht hv => by
    apply eventually_of_succ
    filter_upwards [ht.complete] with n h
    rw [eval, Eval.bind_ok h, expectTest_other hv, Eval.bind_error rfl]
    rfl
  | .condStop ht => by
    apply eventually_of_succ
    filter_upwards [ht.complete] with n h
    rw [eval, Eval.bind_error h]
  | .loopAgain hb hl => by
    apply eventually_of_succ
    filter_upwards [hb.complete, hl.complete] with n h1 h2
    rw [eval, Eval.result_bind h1]
    exact h2
  | .loopBreak hb | .loopReturn hb | .loopFail hb => by
    apply eventually_of_succ
    filter_upwards [hb.complete] with n h
    rw [eval, Eval.result_bind h]
    rfl
  | .ret he | .brk he => by
    apply eventually_of_succ
    filter_upwards [he.complete] with n h
    rw [eval, Eval.bind_ok h]
    rfl
  | .retStop he | .brkStop he => by
    apply eventually_of_succ
    filter_upwards [he.complete] with n h
    rw [eval, Eval.bind_error h]

theorem InOrder.complete {es : List Expr} {s t : State σ} {r : Except Stop (List Value)} :
    InOrder m es s r t → Answers m es s r t
  | .nil => answers_nil s
  | .cons he hes => answers_cons he.complete hes.complete
  | .later he hes => answers_cons he.complete hes.complete
  | .stop he => answers_stop he.complete

theorem Calls.complete {path : Path} {vs : List Value} {s t : State σ} {r : Outcome} :
    Calls m path vs s r t → ∀ᶠ n in atTop, m.callPath n path vs s = some (r, t)
  | .unavailable hc => eventually_of_succ (.of_forall fun n => by
      rw [callPath]
      simp only [hc]
      rfl)
  | .returns hf ha => by
    apply eventually_of_succ
    filter_upwards [ha.complete] with n h
    rw [callPath]
    simp only [hf, h]
  | .fails hf ha => by
    apply eventually_of_succ
    filter_upwards [ha.complete] with n h
    rw [callPath]
    simp only [hf, h]
    rfl

theorem Applies.complete {name : String} {f : Function} {vs : List Value} {s t : State σ}
    {r : Outcome} : Applies m name f vs s r t → ∀ᶠ n in atTop, m.run n name f vs s = some (r, t)
  | .definedArity ha => eventually_of_succ (.of_forall (run_arity ha))
  | .bodyless ha => eventually_of_succ (.of_forall fun n => by
      rw [run_defined_none, checkArity_eq_ok ha, Eval.bind_ok rfl]
      rfl)
  | .plain ha hes => run_body ha hes.complete
  | .returned ha hes => run_body ha hes.complete
  | .broke ha hes => run_body ha hes.complete
  | .failed ha hes => run_body ha hes.complete
  | .nativeArity ha => eventually_of_succ (.of_forall fun n => by
      rw [run, checkArity_eq_error ha, Eval.bind_error rfl]
      rfl)
  | .unhandled ha => eventually_of_succ (.of_forall fun n => by
      rw [run, checkArity_eq_ok ha, Eval.bind_ok rfl, if_neg Bool.false_ne_true]
      rfl)
  | .replied ha hp => run_handler ha hp.complete
  | .refused ha hp => run_handler ha hp.complete
  | .imported => eventually_of_succ (.of_forall fun n => by rw [run_imported]; rfl)

theorem Performs.complete {a : Action σ} {w w' : World σ} {r : Except Failure Value} :
    Performs m a w r w' → ∀ᶠ n in atTop, m.perform n a w = some (r, w')
  | .reply | .refuse => eventually_of_succ (.of_forall fun n => by rw [perform])
  | .get h | .put h | .list h | .object h | .release h => by
    apply eventually_of_succ
    filter_upwards [h.complete] with n hn
    rw [perform, hn]
  | .call hc h => by
    apply eventually_of_succ
    filter_upwards [hc.complete, h.complete] with n h1 h2
    rw [perform, apart_eq_some.2 ⟨_, _, h1, rfl, rfl⟩]
    exact h2
  | .evaluate he h => by
    apply eventually_of_succ
    filter_upwards [he.complete, h.complete] with n h1 h2
    rw [perform, apart_eq_some.2 ⟨_, _, h1, rfl, rfl⟩]
    exact h2
  | .acquire hf h => by
    apply eventually_of_succ
    filter_upwards [h.complete] with n hn
    rw [perform, hf]
    exact hn
  | .acquireRefused hc h => by
    apply eventually_of_succ
    filter_upwards [h.complete] with n hn
    rw [perform, hc]
    exact hn

end

/-! ## Agreement -/

theorem eval_iff {e : Expr} {s t : State σ} {r : Outcome} :
    (∃ n, m.eval n e s = some (r, t)) ↔ Evals m e s r t :=
  ⟨fun ⟨n, h⟩ => (sound m n).eval h, fun h => h.complete.exists⟩

theorem callPath_iff {path : Path} {vs : List Value} {s t : State σ} {r : Outcome} :
    (∃ n, m.callPath n path vs s = some (r, t)) ↔ Calls m path vs s r t :=
  ⟨fun ⟨n, h⟩ => (sound m n).call h, fun h => h.complete.exists⟩

theorem run_iff {name : String} {f : Function} {vs : List Value} {s t : State σ} {r : Outcome} :
    (∃ n, m.run n name f vs s = some (r, t)) ↔ Applies m name f vs s r t :=
  ⟨fun ⟨n, h⟩ => (sound m n).run h, fun h => h.complete.exists⟩

/-- One plain iteration of a loop. -/
def Iterates (m : Machine σ) (body : Expr) (s t : State σ) : Prop := ∃ v, Evals m body s (.ok v) t

theorem loop_iterations {body : Expr} {v : Value} {u : State σ} :
    ∀ (n : Nat) (s : State σ), m.eval n (.loop body) s = some (.ok v, u) →
      ∃ t, Relation.ReflTransGen (Iterates m body) s t ∧ Evals m body t (.error (.brk v)) u
  | 0, s, h => by cases h
  | n + 1, s, h => by
    rw [eval] at h
    obtain ⟨x, t, hx, hk⟩ := Eval.result_bind_cases h
    have hbody := (sound m n).eval hx
    match x, hbody, hk with
    | .ok w, hbody, hk =>
      obtain ⟨t', hi, hb⟩ := loop_iterations n t hk
      exact ⟨t', .head ⟨w, hbody⟩ hi, hb⟩
    | .error (.brk w), hbody, hk =>
      cases hk
      exact ⟨s, .refl, hbody⟩
    | .error (.ret w), _, hk => cases hk
    | .error (.fail f), _, hk => cases hk

theorem evals_loop_of_iterations {body : Expr} {s t u : State σ} {r : Outcome}
    (h : Relation.ReflTransGen (Iterates m body) s t) (hl : Evals m (.loop body) t r u) :
    Evals m (.loop body) s r u := by
  induction h using Relation.ReflTransGen.head_induction_on with
  | refl => exact hl
  | head hstep _ ih =>
    obtain ⟨v, hb⟩ := hstep
    exact .loopAgain hb ih

/-- The evaluator, its calls and its function runs end in a state with an outcome exactly if the
rules derive this; and a loop has a value exactly if finitely many plain iterations come before one
that breaks with it. -/
theorem evaluation_iff_rules (m : Machine σ) :
    (∀ e s r t, (∃ n, m.eval n e s = some (r, t)) ↔ Evals m e s r t) ∧
    (∀ path vs s r t, (∃ n, m.callPath n path vs s = some (r, t)) ↔ Calls m path vs s r t) ∧
    (∀ name f vs s r t, (∃ n, m.run n name f vs s = some (r, t)) ↔ Applies m name f vs s r t) ∧
    ∀ body s v u, (∃ n, m.eval n (.loop body) s = some (.ok v, u)) ↔
      ∃ t, Relation.ReflTransGen (Iterates m body) s t ∧ Evals m body t (.error (.brk v)) u := by
  refine ⟨fun _ _ _ _ => eval_iff, fun _ _ _ _ _ => callPath_iff,
    fun _ _ _ _ _ _ => run_iff, fun body s v u => ?_⟩
  constructor
  · rintro ⟨n, h⟩
    exact loop_iterations n s h
  · rintro ⟨t, hi, hb⟩
    exact eval_iff.2 (evals_loop_of_iterations hi (.loopBreak hb))

end Arbor.Machine
