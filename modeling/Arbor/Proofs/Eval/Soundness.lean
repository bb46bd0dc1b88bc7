import Arbor.Proofs.Eval.Rules

/-!
What the evaluator answers with any amount of fuel, the rules derive (`sound`).

The evaluator keeps the value of a block and the fields of a map in an accumulator where the rules
speak of all values in order. `List.getLastD` and `fieldsOf` say what the accumulators come to.
-/

set_option autoImplicit false

namespace Arbor

variable {σ α β : Type}

/-! ## Computations -/

namespace Eval

theorem bind_cases {c : Eval σ α} {f : α → Eval σ β} {s t : State σ} {r : Except Stop β}
    (h : (c >>= f) s = some (r, t)) :
    (∃ a u, c s = some (.ok a, u) ∧ f a u = some (r, t)) ∨
      ∃ x, c s = some (.error x, t) ∧ r = .error x := by
  change Eval.bind c f s = some (r, t) at h
  unfold Eval.bind at h
  split at h
  · cases h
  · next a u hc => exact .inl ⟨a, u, hc, h⟩
  · next x u hc =>
    cases h
    exact .inr ⟨x, hc, rfl⟩

theorem result_bind_cases {c : Eval σ α} {f : Except Stop α → Eval σ β} {s t : State σ}
    {r : Except Stop β} (h : (Eval.result c >>= f) s = some (r, t)) :
    ∃ x u, c s = some (x, u) ∧ f x u = some (r, t) := by
  obtain ⟨x, u, hc, hf⟩ | ⟨x, hc, -⟩ := bind_cases h
  · unfold Eval.result at hc
    split at hc
    · cases hc
    · next y u' hy =>
      cases hc
      exact ⟨x, u, hy, hf⟩
  · unfold Eval.result at hc
    split at hc <;> cases hc

theorem inFrame_bind_cases {frame : Frame} {c : Eval σ α} {f : Except Stop α → Eval σ β}
    {s t : State σ} {r : Except Stop β} (h : (Eval.inFrame frame c >>= f) s = some (r, t)) :
    ∃ x u, c (s.push frame) = some (x, u) ∧ f x u.pop = some (r, t) := by
  obtain ⟨x, u, hc, hf⟩ | ⟨x, hc, -⟩ := bind_cases h
  · unfold Eval.inFrame at hc
    split at hc
    · cases hc
    · next y u' hy =>
      cases hc
      exact ⟨x, u', hy, hf⟩
  · unfold Eval.inFrame at hc
    split at hc <;> cases hc

theorem bind_ok {c : Eval σ α} {s t : State σ} {a : α} (h : c s = some (.ok a, t))
    (f : α → Eval σ β) : (c >>= f) s = f a t := by
  change Eval.bind c f s = f a t
  simp only [Eval.bind, h]

theorem bind_error {c : Eval σ α} {s t : State σ} {x : Stop} (h : c s = some (.error x, t))
    (f : α → Eval σ β) : (c >>= f) s = some (.error x, t) := by
  change Eval.bind c f s = some (.error x, t)
  simp only [Eval.bind, h]

theorem result_bind {c : Eval σ α} {s t : State σ} {x : Except Stop α} (h : c s = some (x, t))
    (f : Except Stop α → Eval σ β) : (Eval.result c >>= f) s = f x t := by
  apply bind_ok
  simp only [Eval.result, h]

theorem inFrame_bind {frame : Frame} {c : Eval σ α} {s t : State σ} {x : Except Stop α}
    (h : c (s.push frame) = some (x, t)) (f : Except Stop α → Eval σ β) :
    (Eval.inFrame frame c >>= f) s = f x t.pop := by
  apply bind_ok
  simp only [Eval.inFrame, h]

end Eval

theorem Failure.isLocated_locate (f : Failure) (stack : List Path) :
    (f.locate stack).isLocated = true := by
  unfold Failure.locate
  split
  · assumption
  · rfl

namespace Machine

variable {m : Machine σ} {n : Nat}

/-! ## One function after the other -/

/-- The fields that the entries of a map add to those there are. -/
def fieldsOf (fields : Table Value) (es : List Entry) (vs : List Value) : Table Value :=
  ((es.filterMap Entry.key?).zip vs).foldl (fun t p => Table.insert t p.1 p.2) fields

/-- What the evaluator answers with this amount of fuel, the rules derive. -/
structure Sound (m : Machine σ) (n : Nat) : Prop where
  eval : ∀ {e : Expr} {s t : State σ} {r : Outcome},
    m.eval n e s = some (r, t) → Evals m e s r t
  block : ∀ {last : Value} {es : List Expr} {s t : State σ} {r : Outcome},
    m.evalBlock n last es s = some (r, t) →
      ∃ x, InOrder m es s x t ∧ r = x.map (·.getLastD last)
  all : ∀ {es : List Expr} {s t : State σ} {r : Except Stop (List Value)},
    m.evalAll n es s = some (r, t) → InOrder m es s r t
  entries : ∀ {fields : Table Value} {es : List Entry} {s t : State σ}
      {r : Except Stop (Table Value)},
    m.evalEntries n fields es s = some (r, t) →
      ∃ x, InOrder m (es.filterMap Entry.value?) s x t ∧ r = x.map (fieldsOf fields es)
  call : ∀ {path : Path} {vs : List Value} {s t : State σ} {r : Outcome},
    m.callPath n path vs s = some (r, t) → Calls m path vs s r t
  run : ∀ {name : String} {f : Function} {vs : List Value} {s t : State σ} {r : Outcome},
    m.run n name f vs s = some (r, t) → Applies m name f vs s r t
  perform : ∀ {a : Action σ} {w w' : World σ} {r : Except Failure Value},
    m.perform n a w = some (r, w') → Performs m a w r w'

theorem evals_of_expectTest {test a b : Expr} {s t u : State σ} {v : Value} {r : Outcome}
    (hv : Evals m test s (.ok v) t)
    (ha : m.eval n a t = some (r, u) → Evals m a t r u)
    (hb : m.eval n b t = some (r, u) → Evals m b t r u)
    (h : (Eval.ofCheck v.expectTest >>= fun yes => if yes = true then m.eval n a else m.eval n b) t
      = some (r, u)) : Evals m (.cond test a b) s r u := by
  cases v with
  | bool x =>
    rw [Value.expectTest, Eval.ofCheck, Eval.bind_ok rfl] at h
    cases x with
    | true => exact .condTrue hv (ha h)
    | false => exact .condFalse hv (hb h)
  | _ =>
    rw [Eval.bind_error rfl] at h
    cases h
    exact .condOther hv (by simp [Value.kind?])

theorem expectTest_other {v : Value} (h : v.kind? ≠ some .bool) :
    v.expectTest = .error (v.mismatch .bool "condition") := by
  cases v with
  | bool x => exact absurd rfl h
  | _ => rfl

theorem eval_sound (ih : Sound m n) {e : Expr} {s t : State σ} {r : Outcome}
    (h : m.eval (n + 1) e s = some (r, t)) : Evals m e s r t := by
  cases e with
  | absent =>
    rw [eval] at h
    cases h
    exact .absent
  | empty type =>
    by_cases hb : type = .block
    · subst hb
      rw [eval] at h
      cases h
      exact .emptyBlock
    · rw [eval] at h
      · cases h
        exact .empty hb
      · exact hb
  | block es =>
    rw [eval] at h
    obtain ⟨x, hx, rfl⟩ := ih.block h
    cases x with
    | ok vs => exact .block hx
    | error x => exact .blockStop hx
  | assign name e =>
    rw [eval] at h
    obtain ⟨v, u, hv, hb⟩ | ⟨x, hx, rfl⟩ := Eval.bind_cases h
    · cases hi : u.scopes.insert? name v with
      | none =>
        rw [Eval.bind_error (by simp only [Eval.bindName, hi]; rfl)] at hb
        cases hb
        exact .assignNowhere (ih.eval hv) hi
      | some scopes =>
        rw [Eval.bind_ok (by simp only [Eval.bindName, hi]; rfl)] at hb
        cases hb
        exact .assign (ih.eval hv) hi
    · exact .assignStop (ih.eval hx)
  | var name =>
    rw [eval, Eval.readName] at h
    cases hl : s.scopes.lookup? name with
    | none =>
      rw [hl] at h
      cases h
      exact .unbound hl
    | some v =>
      rw [hl] at h
      cases h
      exact .var hl
  | string x =>
    rw [eval] at h
    cases h
    exact .string
  | integer x =>
    rw [eval] at h
    cases h
    exact .integer
  | float x =>
    rw [eval] at h
    cases h
    exact .float
  | bool x =>
    rw [eval] at h
    cases h
    exact .bool
  | list es =>
    rw [eval] at h
    obtain ⟨vs, u, hv, hk⟩ | ⟨x, hx, rfl⟩ := Eval.bind_cases h
    · rw [Eval.bind_ok rfl] at hk
      cases hk
      exact .list (ih.all hv)
    · exact .listStop (ih.all hx)
  | map es =>
    rw [eval] at h
    obtain ⟨fs, u, hf, hk⟩ | ⟨x, hx, rfl⟩ := Eval.bind_cases h
    · obtain ⟨y, hy, he⟩ := ih.entries hf
      rw [Eval.bind_ok rfl] at hk
      cases hk
      cases y with
      | ok vs =>
        cases he
        exact .map hy
      | error x => cases he
    · obtain ⟨y, hy, he⟩ := ih.entries hx
      cases y with
      | ok vs => cases he
      | error x =>
        cases he
        exact .mapStop hy
  | call path es =>
    rw [eval] at h
    obtain ⟨vs, u, hv, hk⟩ | ⟨x, hx, rfl⟩ := Eval.bind_cases h
    · exact .call (ih.all hv) (ih.call hk)
    · exact .callStop (ih.all hx)
  | cond test a b =>
    rw [eval] at h
    obtain ⟨v, u, hv, hk⟩ | ⟨x, hx, rfl⟩ := Eval.bind_cases h
    · exact evals_of_expectTest (ih.eval hv) ih.eval ih.eval hk
    · exact .condStop (ih.eval hx)
  | loop body =>
    rw [eval] at h
    obtain ⟨x, u, hx, hk⟩ := Eval.result_bind_cases h
    cases x with
    | ok v => exact .loopAgain (ih.eval hx) (ih.eval hk)
    | error x =>
      cases x with
      | ret v =>
        cases hk
        exact .loopReturn (ih.eval hx)
      | brk v =>
        cases hk
        exact .loopBreak (ih.eval hx)
      | fail f =>
        cases hk
        exact .loopFail (ih.eval hx)
  | ret e =>
    rw [eval] at h
    obtain ⟨v, u, hv, hk⟩ | ⟨x, hx, rfl⟩ := Eval.bind_cases h
    · cases hk
      exact .ret (ih.eval hv)
    · exact .retStop (ih.eval hx)
  | brk e =>
    rw [eval] at h
    obtain ⟨v, u, hv, hk⟩ | ⟨x, hx, rfl⟩ := Eval.bind_cases h
    · cases hk
      exact .brk (ih.eval hv)
    · exact .brkStop (ih.eval hx)

theorem block_sound (ih : Sound m n) {last : Value} {es : List Expr} {s t : State σ} {r : Outcome}
    (h : m.evalBlock (n + 1) last es s = some (r, t)) :
    ∃ x, InOrder m es s x t ∧ r = x.map (·.getLastD last) := by
  cases es with
  | nil =>
    rw [evalBlock] at h
    cases h
    exact ⟨.ok [], .nil, rfl⟩
  | cons e es =>
    rw [evalBlock] at h
    obtain ⟨v, u, hv, hk⟩ | ⟨x, hx, rfl⟩ := Eval.bind_cases h
    · obtain ⟨x, hx, rfl⟩ := ih.block hk
      cases x with
      | ok vs =>
        exact ⟨.ok (v :: vs), .cons (ih.eval hv) hx, congrArg Except.ok (List.getLastD_cons ..).symm⟩
      | error x => exact ⟨.error x, .later (ih.eval hv) hx, rfl⟩
    · exact ⟨.error x, .stop (ih.eval hx), rfl⟩

theorem all_sound (ih : Sound m n) {es : List Expr} {s t : State σ}
    {r : Except Stop (List Value)} (h : m.evalAll (n + 1) es s = some (r, t)) :
    InOrder m es s r t := by
  cases es with
  | nil =>
    rw [evalAll] at h
    cases h
    exact .nil
  | cons e es =>
    rw [evalAll] at h
    obtain ⟨v, u, hv, hk⟩ | ⟨x, hx, rfl⟩ := Eval.bind_cases h
    · obtain ⟨vs, u', hvs, hp⟩ | ⟨x, hx, rfl⟩ := Eval.bind_cases hk
      · cases hp
        exact .cons (ih.eval hv) (ih.all hvs)
      · exact .later (ih.eval hv) (ih.all hx)
    · exact .stop (ih.eval hx)

theorem entries_sound (ih : Sound m n) {fields : Table Value} {es : List Entry} {s t : State σ}
    {r : Except Stop (Table Value)} (h : m.evalEntries (n + 1) fields es s = some (r, t)) :
    ∃ x, InOrder m (es.filterMap Entry.value?) s x t ∧ r = x.map (fieldsOf fields es) := by
  cases es with
  | nil =>
    rw [evalEntries] at h
    cases h
    exact ⟨.ok [], .nil, rfl⟩
  | cons entry es =>
    cases entry with
    | blank =>
      rw [evalEntries] at h
      obtain ⟨x, hx, rfl⟩ := ih.entries h
      exact ⟨x, hx, rfl⟩
    | field key e =>
      rw [evalEntries] at h
      obtain ⟨v, u, hv, hk⟩ | ⟨x, hx, rfl⟩ := Eval.bind_cases h
      · obtain ⟨x, hx, rfl⟩ := ih.entries hk
        cases x with
        | ok vs => exact ⟨.ok (v :: vs), .cons (ih.eval hv) hx, rfl⟩
        | error x => exact ⟨.error x, .later (ih.eval hv) hx, rfl⟩
      · exact ⟨.error x, .stop (ih.eval hx), rfl⟩

/-- No return and no break leaves a function that was run. -/
theorem Applies.ends {name : String} {f : Function} {vs : List Value} {s t : State σ} {r : Outcome}
    (h : Applies m name f vs s r t) : (∃ v, r = .ok v) ∨ ∃ x, r = .error (.fail x) := by
  cases h with
  | bodyless | plain | returned | replied => exact .inl ⟨_, rfl⟩
  | _ => exact .inr ⟨_, rfl⟩

/-- A call ends with a value or with a failure on which the active calls are recorded. -/
theorem Calls.ends {path : Path} {vs : List Value} {s t : State σ} {r : Outcome}
    (h : Calls m path vs s r t) :
    (∃ v, r = .ok v) ∨ ∃ f : Failure, f.isLocated = true ∧ r = .error (.fail f) := by
  cases h with
  | unavailable hc => exact .inr ⟨_, Failure.isLocated_locate _ _, rfl⟩
  | returns hf ha => exact .inl ⟨_, rfl⟩
  | fails hf ha => exact .inr ⟨_, Failure.isLocated_locate _ _, rfl⟩

theorem call_sound (ih : Sound m n) {path : Path} {vs : List Value} {s t : State σ} {r : Outcome}
    (h : m.callPath (n + 1) path vs s = some (r, t)) : Calls m path vs s r t := by
  rw [callPath] at h
  dsimp only at h
  split at h
  · next c hc =>
    cases h
    exact .unavailable hc
  · next f held hf =>
    split at h
    · cases h
    · next v u hu =>
      cases h
      exact .returns hf (ih.run hu)
    · next x u hu =>
      cases h
      obtain ⟨v, hv⟩ | ⟨y, hy⟩ := (ih.run hu).ends
      · cases hv
      · cases hy
        exact .fails hf (ih.run hu)

theorem checkArity_eq_ok {name : String} {k : Nat} {vs : List Value} (h : vs.length = k) :
    checkArity name k vs = .ok () := if_pos h

theorem checkArity_eq_error {name : String} {k : Nat} {vs : List Value} (h : vs.length ≠ k) :
    checkArity name k vs = .error (.arity name k vs.length) := if_neg h

theorem run_defined_none (n : Nat) (name : String) (ps : List String) (vs : List Value) :
    m.run (n + 1) name (.defined ps none) vs = (do
      Eval.ofCheck (checkArity name ps.length vs)
      Eval.pure .none) := rfl

theorem run_defined_some (n : Nat) (name : String) (ps : List String) (es : List Expr) (vs : List Value) :
    m.run (n + 1) name (.defined ps (some es)) vs = (do
      Eval.ofCheck (checkArity name ps.length vs)
      let r ← Eval.inFrame (Frame.seed ps vs false) (m.evalBlock n .none es)
      Eval.done (boundary name r)) := rfl

theorem run_imported (n : Nat) (name : String) (target : Path) (vs : List Value) :
    m.run (n + 1) name (.imported target) vs =
      Eval.refuse (.unsupported (.callImported target)) := rfl

theorem run_arity {name : String} {vs : List Value} {s : State σ} {ps : List String}
    {body : Option (List Expr)} (ha : vs.length ≠ ps.length) (n : Nat) :
    m.run (n + 1) name (.defined ps body) vs s
      = some (Stop.raise (.arity name ps.length vs.length), s) := by
  cases body with
  | none =>
    rw [run_defined_none, checkArity_eq_error ha, Eval.bind_error rfl]
    rfl
  | some es =>
    rw [run_defined_some, checkArity_eq_error ha, Eval.bind_error rfl]
    rfl

theorem run_defined_sound (ih : Sound m n) {name : String} {ps : List String}
    {body : Option (List Expr)} {vs : List Value} {s t : State σ} {r : Outcome}
    (h : m.run (n + 1) name (.defined ps body) vs s = some (r, t)) :
    Applies m name (.defined ps body) vs s r t := by
  by_cases ha : vs.length = ps.length
  · cases body with
    | none =>
      rw [run_defined_none, checkArity_eq_ok ha, Eval.bind_ok rfl] at h
      cases h
      exact .bodyless ha
    | some es =>
      rw [run_defined_some, checkArity_eq_ok ha, Eval.bind_ok rfl] at h
      obtain ⟨x, u, hx, hk⟩ := Eval.inFrame_bind_cases h
      cases hk
      obtain ⟨y, hy, rfl⟩ := ih.block hx
      match y, hy with
      | .ok ws, hy => exact .plain ha hy
      | .error (.ret v), hy => exact .returned ha hy
      | .error (.brk v), hy => exact .broke ha hy
      | .error (.fail x), hy => exact .failed ha hy
  · rw [run_arity ha] at h
    cases h
    exact .definedArity ha

theorem run_native_sound (ih : Sound m n) {name : String} {id : NativeId} {arity : Nat}
    {handled : Bool} {vs : List Value} {s t : State σ} {r : Outcome}
    (h : m.run (n + 1) name (.native id arity handled) vs s = some (r, t)) :
    Applies m name (.native id arity handled) vs s r t := by
  rw [run] at h
  by_cases ha : vs.length = arity
  · rw [checkArity_eq_ok ha, Eval.bind_ok rfl] at h
    cases handled with
    | false =>
      cases h
      exact .unhandled ha
    | true =>
      rw [if_pos rfl] at h
      cases hp : m.perform n (m.handlers id vs) s.world with
      | none =>
        have hn : Eval.onWorld (m.perform n (m.handlers id vs)) s = none := by
          simp only [Eval.onWorld, hp]
        obtain ⟨a, u, hu, -⟩ | ⟨x, hx, -⟩ := Eval.bind_cases h
        · rw [hn] at hu
          cases hu
        · rw [hn] at hx
          cases hx
      | some p =>
        obtain ⟨y, w⟩ := p
        rw [Eval.bind_ok (by simp only [Eval.onWorld, hp]; rfl)] at h
        cases y with
        | ok v =>
          cases h
          exact .replied ha (ih.perform hp)
        | error x =>
          cases h
          exact .refused ha (ih.perform hp)
  · rw [checkArity_eq_error ha, Eval.bind_error rfl] at h
    cases h
    exact .nativeArity ha

theorem run_sound (ih : Sound m n) {name : String} {f : Function} {vs : List Value}
    {s t : State σ} {r : Outcome} (h : m.run (n + 1) name f vs s = some (r, t)) :
    Applies m name f vs s r t := by
  cases f with
  | defined ps body => exact run_defined_sound ih h
  | native id arity handled => exact run_native_sound ih h
  | imported target =>
    rw [run_imported] at h
    cases h
    exact .imported

/-- What a computation in a context of its own comes to. -/
theorem apart_eq_some {c : Eval σ Value} {w w' : World σ} {r : Except Failure Value} :
    apart c w = some (r, w') ↔
      ∃ x t, c (State.start w) = some (x, t) ∧ r = settle t.calls.reverse x ∧ w' = t.world := by
  unfold apart
  constructor
  · intro h
    split at h
    · cases h
    · next x t hc =>
      cases h
      exact ⟨x, t, hc, rfl, rfl⟩
  · rintro ⟨x, t, hc, rfl, rfl⟩
    rw [hc]

theorem perform_sound (ih : Sound m n) {a : Action σ} {w w' : World σ} {r : Except Failure Value}
    (h : m.perform (n + 1) a w = some (r, w')) : Performs m a w r w' := by
  cases a with
  | reply v =>
    rw [perform] at h
    cases h
    exact .reply
  | refuse x =>
    rw [perform] at h
    cases h
    exact .refuse
  | get next =>
    rw [perform] at h
    exact .get (ih.perform h)
  | put host next =>
    rw [perform] at h
    exact .put (ih.perform h)
  | list vs next =>
    rw [perform] at h
    exact .list (ih.perform h)
  | object fs next =>
    rw [perform] at h
    exact .object (ih.perform h)
  | call path vs next =>
    rw [perform] at h
    obtain ⟨p, hp, hk⟩ := Option.bind_eq_some_iff.1 h
    obtain ⟨x, t, hc, hr, hw⟩ := apart_eq_some.1 hp
    rw [hr, hw] at hk
    exact .call (ih.call hc) (ih.perform hk)
  | evaluate e next =>
    rw [perform] at h
    obtain ⟨p, hp, hk⟩ := Option.bind_eq_some_iff.1 h
    obtain ⟨x, t, hc, hr, hw⟩ := apart_eq_some.1 hp
    rw [hr, hw] at hk
    exact .evaluate (ih.eval hc) (ih.perform hk)
  | acquire path next =>
    rw [perform] at h
    split at h
    · next c hc => exact .acquireRefused hc (ih.perform h)
    · next f held hf => exact .acquire hf (ih.perform h)
  | release f next =>
    rw [perform] at h
    exact .release (ih.perform h)

theorem sound (m : Machine σ) : ∀ n, Sound m n
  | 0 => by
    refine ⟨?_, ?_, ?_, ?_, ?_, ?_, ?_⟩
    · intro e s t r h
      cases h
    · intro last es s t r h
      cases h
    · intro es s t r h
      cases h
    · intro fields es s t r h
      cases h
    · intro path vs s t r h
      cases h
    · intro name f vs s t r h
      cases h
    · intro a w w' r h
      cases h
  | n + 1 =>
    have ih := sound m n
    ⟨eval_sound ih, block_sound ih, all_sound ih, entries_sound ih, call_sound ih, run_sound ih,
      perform_sound ih⟩

end Machine

end Arbor
