import Arbor.Proofs.Eval.Lockstep
import Arbor.Proofs.Eval.Reference
import Mathlib.Data.List.DropRight

/-!
The stack on a failure is the list of the calls that were active where it arose.

The evaluator records the stack late: a failure arises bare, and the first call that it leaves puts
the calls of that moment on it. The reference evaluator takes the list along from the start. Both
are run side by side, and `Mishap.Shows` relates what comes out of them: a failure that is still
bare arose under the very calls that are active now, since every call that was made in between has
been taken off again.

* `Follows R active c c'`: the computation `c` in a context with these active calls ends as the
  course `c'` does, with failures related by `R`, and with the same calls active.
* `followed`: the evaluator follows the reference evaluator.
* `stack_active`: the stack of a failure, and what is reported of it.
-/

set_option autoImplicit false

namespace Arbor

open Reference (Exit Site Course)

variable {σ ε α β : Type}

/-! ## Failures and mishaps -/

/-- A failure that comes out under the calls `active` and the mishap it stands for: it has arisen
under these calls and has no stack yet, or its stack has been recorded. -/
inductive Mishap.Shows (active : List Path) : Failure → Mishap → Prop where
  | bare {f : Failure} : f.isLocated = false → Mishap.Shows active f ⟨f, active⟩
  | recorded {x : Mishap} : Mishap.Shows active x.located x

section Shows
variable {active : List Path} {f : Failure} {x : Mishap}

theorem Mishap.Shows.locate (h : Mishap.Shows active f x) : f.locate active = x.located := by
  cases h with
  | bare hf =>
    rw [Failure.locate, hf]
    rfl
  | recorded => rfl

theorem Mishap.Shows.message_eq (h : Mishap.Shows active f x) : f.message = x.failure.message := by
  cases h with
  | bare => rfl
  | recorded => rfl

/-- A stop and the mishap it stands for. -/
inductive Stop.Fails (active : List Path) : Stop → Mishap → Prop where
  | fail {f : Failure} {x : Mishap} : Mishap.Shows active f x → Stop.Fails active (.fail f) x

theorem Stop.Fails.bare (active : List Path) (c : Cause) :
    Stop.Fails active (.fail (.ofCause c)) ⟨.ofCause c, active⟩ :=
  .fail (.bare rfl)

/-- A stop and the exit it stands for. -/
inductive Stop.Exits (active : List Path) : Stop → Exit → Prop where
  | ret {v : Value} : Stop.Exits active (.ret v) (.ret v)
  | brk {v : Value} : Stop.Exits active (.brk v) (.brk v)
  | fail {y : Stop} {x : Mishap} : Stop.Fails active y x → Stop.Exits active y (.fail x)

end Shows

/-- Ends that agree in their values, and in their stops as `R` says. -/
inductive Agrees (R : Stop → ε → Prop) : Except Stop α → Except ε α → Prop where
  | ok {a : α} : Agrees R (.ok a) (.ok a)
  | error {y : Stop} {x : ε} : R y x → Agrees R (.error y) (.error x)

/-- The context with these calls under way. -/
def Reference.Site.under (s : Site σ) (active : List Path) : State σ :=
  ⟨s.scopes, active.reverse, s.world⟩

/-! ## Computations -/

/-- Two answers that agree, the first one with these calls active; or none at all. -/
inductive Alike (R : Stop → ε → Prop) (active : List Path) :
    Option (Except Stop α × State σ) → Option (Except ε α × Site σ) → Prop where
  | none : Alike R active none none
  | some {r : Except Stop α} {r' : Except ε α} {t : Site σ} : Agrees R r r' →
      Alike R active (some (r, t.under active)) (some (r', t))

/-- In a context with these active calls `c` ends as `c'` does, and they are active again then. -/
def Follows (R : Stop → ε → Prop) (active : List Path) (c : Eval σ α) (c' : Course σ ε α) : Prop :=
  ∀ s : Site σ, Alike R active (c (s.under active)) (c' s)

namespace Follows

variable {R : Stop → ε → Prop} {active : List Path}

theorem exhausted : Follows (σ := σ) (α := α) R active Eval.exhausted Reference.exhausted :=
  fun _ => .none

theorem pure (a : α) : Follows (σ := σ) R active (Eval.pure a) (Pure.pure a) :=
  fun _ => .some .ok

theorem stop {y : Stop} {x : ε} (h : R y x) :
    Follows (σ := σ) (α := α) R active (Eval.stop y) (throw x) :=
  fun _ => .some (.error h)

theorem refuse (c : Cause) : Follows (σ := σ) (α := α) (Stop.Exits active) active (Eval.refuse c)
    (Reference.refuse active c) :=
  stop (.fail (.bare active c))

theorem bind {c : Eval σ α} {c' : Course σ ε α} {f : α → Eval σ β} {f' : α → Course σ ε β}
    (hc : Follows R active c c') (hf : ∀ a, Follows R active (f a) (f' a)) :
    Follows R active (c >>= f) (c' >>= f') := by
  intro s
  have hs := hc s
  change Alike R active (Eval.bind c f (s.under active))
    (c' s >>= fun q => ExceptT.bindCont f' q.1 q.2)
  unfold Eval.bind
  generalize c (s.under active) = p, c' s = q at hs
  cases hs with
  | none => exact .none
  | @some r r' t hr =>
    cases hr with
    | ok => exact hf _ t
    | error hx => exact .some (.error hx)

/-- A computation whose end is looked at. -/
theorem bindResult {ε' : Type} {R' : Stop → ε' → Prop} {c : Eval σ α} {c' : Course σ ε α}
    {f : Except Stop α → Eval σ β} {f' : Except ε α → Course σ ε' β} (hc : Follows R active c c')
    (hf : ∀ r r', Agrees R r r' → Follows R' active (f r) (f' r')) :
    Follows R' active (Eval.result c >>= f) (Reference.outcome c' >>= f') := by
  intro s
  have hs := hc s
  change Alike R' active (Eval.bind (Eval.result c) f (s.under active))
    ((c' s >>= fun q => some (Except.ok q.1, q.2)) >>= fun q => ExceptT.bindCont f' q.1 q.2)
  unfold Eval.bind Eval.result
  generalize c (s.under active) = p, c' s = q at hs
  cases hs with
  | none => exact .none
  | @some r r' t hr => exact hf r r' hr t

/-- A function body: its frame is there while it runs, and gone when its end is looked at. -/
theorem bindFrame {frame : Frame} {c : Eval σ Value} {c' : Course σ Exit Value}
    {f : Except Stop Value → Eval σ β} {f' : Except Exit Value → Course σ Mishap β}
    {R' : Stop → Mishap → Prop} (hc : Follows (Stop.Exits active) active c c')
    (hf : ∀ r r', Agrees (Stop.Exits active) r r' → Follows R' active (f r) (f' r')) :
    Follows R' active (Eval.inFrame frame c >>= f) (Reference.inFrame frame c' >>= f') := by
  intro s
  have hs := hc { s with scopes := s.scopes.push frame }
  change Alike R' active (Eval.bind (Eval.inFrame frame c) f (s.under active))
    (((c' { s with scopes := s.scopes.push frame } >>= fun q => some (Except.ok q.1, q.2)) >>= _)
      >>= _)
  unfold Eval.bind Eval.inFrame
  rw [show (s.under active).push frame
    = Site.under { s with scopes := s.scopes.push frame } active from rfl]
  generalize c (Site.under _ active) = p, c' { s with scopes := s.scopes.push frame } = q at hs
  cases hs with
  | none => exact .none
  | @some r r' t hr => exact hf r r' hr { t with scopes := t.scopes.pop }

theorem readName (x : String) : Follows (σ := σ) (Stop.Exits active) active (Eval.readName x)
    (Reference.readName active x) := by
  intro s
  change Alike _ active (Eval.readName x (s.under active))
    (((s.scopes.lookup? x).elim (Reference.refuse active (.unboundVariable x)) Pure.pure :
      Course σ Exit Value) s)
  unfold Eval.readName
  rw [show (s.under active).scopes = s.scopes from rfl]
  cases s.scopes.lookup? x with
  | none => exact refuse _ s
  | some v => exact .some .ok

theorem bindName (x : String) (v : Value) : Follows (σ := σ) (Stop.Exits active) active
    (Eval.bindName x v) (Reference.bindName active x v) := by
  intro s
  change Alike _ active (Eval.bindName x v (s.under active))
    (((s.scopes.insert? x v).elim (Reference.refuse active (.controlFlow (.assigned x)))
      fun scopes => set { s with scopes := scopes } : Course σ Exit Unit) s)
  unfold Eval.bindName
  rw [show (s.under active).scopes = s.scopes from rfl]
  cases s.scopes.insert? x v with
  | none => exact refuse _ s
  | some scopes => exact .some (t := { s with scopes := scopes }) .ok

theorem newHandle : Follows (σ := σ) (Stop.Exits active) active Eval.newHandle
    Reference.newHandle :=
  fun s => .some (t := { s with world := s.world.skipHandle }) .ok

/-- The mishaps of a call are exits of the expression that makes it. -/
theorem adapt {c : Eval σ α} {c' : Course σ Mishap α} (hc : Follows (Stop.Fails active) active c c') :
    Follows (Stop.Exits active) active c (ExceptT.adapt Exit.fail c') := by
  intro s
  have hs := hc s
  change Alike _ active _ ((c' s).bind fun q => some (Except.mapError Exit.fail q.1, q.2))
  generalize c (s.under active) = p, c' s = q at hs
  cases hs with
  | none => exact .none
  | some hr =>
    refine .some ?_
    cases hr with
    | ok => exact .ok
    | error hx => exact .error (.fail hx)

end Follows

/-! ## The two evaluators -/

namespace Machine

/-- With this amount of fuel each function of the evaluator follows that of the reference. -/
structure Followed (m : Machine σ) (n : Nat) : Prop where
  eval : ∀ active e, Follows (Stop.Exits active) active (m.eval n e) (Reference.eval m n active e)
  block : ∀ active last es, Follows (Stop.Exits active) active (m.evalBlock n last es)
    (Reference.evalBlock m n active last es)
  all : ∀ active es, Follows (Stop.Exits active) active (m.evalAll n es)
    (Reference.evalAll m n active es)
  entries : ∀ active fields es, Follows (Stop.Exits active) active (m.evalEntries n fields es)
    (Reference.evalEntries m n active fields es)
  call : ∀ active path vs, Follows (Stop.Fails active) active (m.callPath n path vs)
    (Reference.callPath m n active path vs)
  run : ∀ active name f vs, Follows (Stop.Fails active) active (m.run n name f vs)
    (Reference.run m n active name f vs)
  perform : ∀ a w, m.perform n a w = Reference.perform m n a w

variable {m : Machine σ} {n : Nat}

theorem followed_eval (ih : Followed m n) (active : List Path) (e : Expr) :
    Follows (Stop.Exits active) active (m.eval (n + 1) e) (Reference.eval m (n + 1) active e) := by
  cases e with
  | absent =>
    rw [eval, Reference.eval]
    exact .pure _
  | empty type =>
    by_cases hb : type = .block
    · subst hb
      rw [eval, Reference.eval]
      exact .pure _
    · rw [eval, Reference.eval]
      · exact .refuse _
      · exact hb
      · exact hb
  | block es =>
    rw [eval, Reference.eval]
    exact ih.block active .none es
  | assign name e =>
    rw [eval, Reference.eval]
    refine .bind (ih.eval active e) fun v => ?_
    exact .bind (.bindName name v) fun _ => .pure v
  | var name =>
    rw [eval, Reference.eval]
    exact .readName name
  | string x =>
    rw [eval, Reference.eval]
    exact .pure _
  | integer x =>
    rw [eval, Reference.eval]
    exact .pure _
  | float x =>
    rw [eval, Reference.eval]
    exact .pure _
  | bool x =>
    rw [eval, Reference.eval]
    exact .pure _
  | list es =>
    rw [eval, Reference.eval]
    refine .bind (ih.all active es) fun vs => ?_
    exact .bind .newHandle fun h => .pure _
  | map es =>
    rw [eval, Reference.eval]
    refine .bind (ih.entries active [] es) fun fs => ?_
    exact .bind .newHandle fun h => .pure _
  | call path es =>
    rw [eval, Reference.eval]
    exact .bind (ih.all active es) fun vs => .adapt (ih.call active path vs)
  | cond test a b =>
    rw [eval, Reference.eval]
    refine .bind (ih.eval active test) fun v => ?_
    cases v.expectTest with
    | ok yes =>
      cases yes with
      | true => exact ih.eval active a
      | false => exact ih.eval active b
    | error c => exact .refuse c
  | loop body =>
    rw [eval, Reference.eval]
    refine .bindResult (ih.eval active body) fun r r' hr => ?_
    cases hr with
    | ok => exact ih.eval active (.loop body)
    | error hx =>
      cases hx with
      | ret => exact .stop .ret
      | brk => exact .pure _
      | fail hf =>
        cases hf with
        | fail hf => exact .stop (.fail (.fail hf))
  | ret e =>
    rw [eval, Reference.eval]
    exact .bind (ih.eval active e) fun v => .stop .ret
  | brk e =>
    rw [eval, Reference.eval]
    exact .bind (ih.eval active e) fun v => .stop .brk

theorem followed_block (ih : Followed m n) (active : List Path) (last : Value) (es : List Expr) :
    Follows (Stop.Exits active) active (m.evalBlock (n + 1) last es)
      (Reference.evalBlock m (n + 1) active last es) := by
  cases es with
  | nil =>
    rw [evalBlock, Reference.evalBlock]
    exact .pure _
  | cons e es =>
    rw [evalBlock, Reference.evalBlock]
    exact .bind (ih.eval active e) fun v => ih.block active v es

theorem followed_all (ih : Followed m n) (active : List Path) (es : List Expr) :
    Follows (Stop.Exits active) active (m.evalAll (n + 1) es)
      (Reference.evalAll m (n + 1) active es) := by
  cases es with
  | nil =>
    rw [evalAll, Reference.evalAll]
    exact .pure _
  | cons e es =>
    rw [evalAll, Reference.evalAll]
    refine .bind (ih.eval active e) fun v => ?_
    exact .bind (ih.all active es) fun vs => .pure _

theorem followed_entries (ih : Followed m n) (active : List Path) (fields : Table Value)
    (es : List Entry) :
    Follows (Stop.Exits active) active (m.evalEntries (n + 1) fields es)
      (Reference.evalEntries m (n + 1) active fields es) := by
  cases es with
  | nil =>
    rw [evalEntries, Reference.evalEntries]
    exact .pure _
  | cons entry es =>
    cases entry with
    | blank =>
      rw [evalEntries, Reference.evalEntries]
      exact ih.entries active fields es
    | field key e =>
      rw [evalEntries, Reference.evalEntries]
      refine .bind (ih.eval active e) fun v => ?_
      exact ih.entries active (Table.insert fields key v) es

theorem enter_under (m : Machine σ) (path : Path) (f : Function) (k : Nat) (held : Held)
    (s : Site σ) (active : List Path) :
    m.enter path f k held (s.under active)
      = Site.under ⟨s.scopes, m.note (fun _ => .called path f.kind k (active ++ [path]).length)
          { s.world with held := held }⟩ (active ++ [path]) := by
  have hcalls : path :: active.reverse = (active ++ [path]).reverse := by simp
  have hdepth : (path :: active.reverse).length = (active ++ [path]).length := by simp
  dsimp only [enter, Site.under]
  rw [hdepth, hcalls]

theorem leave_under (m : Machine σ) (path : Path) (f : Function) (e : Unit → Event) (s : Site σ)
    (active : List Path) :
    m.leave f e (s.under (active ++ [path]))
      = Site.under ⟨s.scopes, { m.note e s.world with held := f.release (m.note e s.world).held }⟩
          active := by
  have hcalls : (active ++ [path]).reverse.tail = active.reverse := by simp
  dsimp only [leave, Site.under]
  rw [hcalls]

theorem followed_call (ih : Followed m n) (active : List Path) (path : Path) (vs : List Value) :
    Follows (Stop.Fails active) active (m.callPath (n + 1) path vs)
      (Reference.callPath m (n + 1) active path vs) := by
  intro s
  rw [callPath, Reference.callPath]
  dsimp only
  rw [show (s.under active).world = s.world from rfl]
  cases m.registry.acquire path s.world.held with
  | error c =>
    have hx : (Failure.ofCause c).locate (s.under active).calls.reverse
        = Mishap.located ⟨.ofCause c, active⟩ := by
      rw [show (s.under active).calls = active.reverse from rfl, List.reverse_reverse]
      exact Mishap.Shows.locate (.bare rfl)
    refine .some (t := s) (.error ?_)
    rw [hx]
    exact .fail .recorded
  | ok p =>
    obtain ⟨f, held⟩ := p
    dsimp only
    rw [enter_under]
    have hs := ih.run (active ++ [path]) path.item f vs ⟨s.scopes, m.note (fun _ =>
      .called path f.kind vs.length (active ++ [path]).length) { s.world with held := held }⟩
    generalize m.run n path.item f vs _ = q, Reference.run m n _ path.item f vs _ = q' at hs
    cases hs with
    | none => exact .none
    | @some r r' t hr =>
      cases hr with
      | ok =>
        dsimp only
        rw [leave_under]
        exact .some .ok
      | @error y x hy =>
        obtain ⟨hf⟩ := hy
        dsimp only [Stop.failure]
        rw [leave_under, hf.message_eq]
        -- the callee is still among the active calls when the stack is recorded
        have hx := hf.locate
        rw [← List.reverse_reverse (active ++ [path])] at hx
        refine .some (.error (.fail ?_))
        rw [show (t.under (active ++ [path])).calls = (active ++ [path]).reverse from rfl, hx]
        exact .recorded

theorem agrees_endBody {active : List Path} {r : Outcome} {r' : Except Exit Value}
    (h : Agrees (Stop.Exits active) r r') (name : String) :
    Follows (σ := σ) (Stop.Fails active) active (Eval.done (boundary name r))
      (Reference.endBody active name r') := by
  cases h with
  | ok => exact .pure _
  | error hx =>
    cases hx with
    | ret => exact .pure _
    | brk => exact .stop (.bare active _)
    | fail hf =>
      cases hf with
      | fail hf => exact .stop (.fail hf)

theorem follows_check (active : List Path) (r : Except Cause α) :
    Follows (σ := σ) (Stop.Fails active) active (Eval.ofCheck r) (Reference.check active r) := by
  cases r with
  | ok a => exact .pure a
  | error c => exact .stop (.bare active c)

/-- A handler's failure gets a new layer, so that it is bare again. -/
theorem follows_endHandler {c c' : World σ → Option (Except Failure Value × World σ)}
    (h : ∀ w, c w = c' w) (active : List Path) (name : String) :
    Follows (Stop.Fails active) active
      (Eval.onWorld c >>= fun r =>
        match r with
        | .ok v => Eval.pure v.orNone
        | .error f => Eval.fail (f.wrap (.native name)))
      (Reference.endHandler active name c') := by
  intro s
  change Alike _ active (Eval.bind (Eval.onWorld c) _ (s.under active)) _
  unfold Eval.bind Eval.onWorld Reference.endHandler
  rw [show (s.under active).world = s.world from rfl, h s.world]
  match c' s.world with
  | none => exact .none
  | some (.ok v, w) => exact .some (t := { s with world := w }) .ok
  | some (.error f, w) => exact .some (t := { s with world := w }) (.error (.fail (.bare rfl)))

theorem followed_run (ih : Followed m n) (active : List Path) (name : String) (f : Function)
    (vs : List Value) :
    Follows (Stop.Fails active) active (m.run (n + 1) name f vs)
      (Reference.run m (n + 1) active name f vs) := by
  cases f with
  | defined ps body =>
    cases body with
    | none =>
      rw [run, Reference.run]
      exact .bind (follows_check active _) fun _ => .pure _
    | some es =>
      rw [run, Reference.run]
      refine .bind (follows_check active _) fun _ => ?_
      refine .bindFrame (ih.block active .none es) fun r r' hr => ?_
      exact agrees_endBody hr name
  | native id arity handled =>
    rw [run, Reference.run]
    refine .bind (follows_check active _) fun _ => ?_
    cases handled with
    | false => exact .stop (.bare active _)
    | true => exact follows_endHandler (ih.perform (m.handlers id vs)) active name
  | imported target =>
    rw [run, Reference.run]
    exact .stop (.bare active _)

theorem settle_agrees {r : Outcome} {r' : Except Exit Value} (h : Agrees (Stop.Exits []) r r') :
    settle [] r = (Reference.endContext r').mapError Mishap.located := by
  cases h with
  | ok => rfl
  | error hx =>
    cases hx with
    | ret => rfl
    | brk => rfl
    | fail hf =>
      obtain ⟨hf⟩ := hf
      exact congrArg Except.error hf.locate

/-- A context of its own begins with no active calls, and they are all that its failures show. -/
theorem apart_follows {c : Eval σ Value} {c' : Course σ Exit Value}
    (h : Follows (Stop.Exits []) [] c c') (w : World σ) :
    apart c w = (Reference.apart c' w).map Reference.shown := by
  have hs := h ⟨Scopes.empty, w⟩
  rw [show Site.under ⟨Scopes.empty, w⟩ [] = State.start w from rfl] at hs
  unfold apart Reference.apart
  generalize c (State.start w) = q, c' ⟨Scopes.empty, w⟩ = q' at hs
  cases hs with
  | none => rfl
  | some hr => exact congrArg some (Prod.ext (settle_agrees hr) rfl)

theorem followed_perform (ih : Followed m n) (a : Action σ) (w : World σ) :
    m.perform (n + 1) a w = Reference.perform m (n + 1) a w := by
  cases a with
  | reply v => rw [perform, Reference.perform]
  | refuse f => rw [perform, Reference.perform]
  | get next =>
    rw [perform, Reference.perform]
    exact ih.perform (next w.host) w
  | put host next =>
    rw [perform, Reference.perform]
    exact ih.perform next _
  | list vs next =>
    rw [perform, Reference.perform]
    exact ih.perform _ _
  | object fs next =>
    rw [perform, Reference.perform]
    exact ih.perform _ _
  | call path vs next =>
    rw [perform, Reference.perform, apart_follows (.adapt (ih.call [] path vs)) w]
    exact congrArg _ (funext fun p => ih.perform (next p.1) p.2)
  | evaluate e next =>
    rw [perform, Reference.perform, apart_follows (ih.eval [] e) w]
    exact congrArg _ (funext fun p => ih.perform (next p.1) p.2)
  | acquire path next =>
    rw [perform, Reference.perform]
    cases m.registry.acquire path w.held with
    | error c => exact ih.perform _ w
    | ok p => exact ih.perform _ _
  | release f next =>
    rw [perform, Reference.perform]
    exact ih.perform next _

theorem followed (m : Machine σ) : ∀ n, Followed m n
  | 0 =>
    { eval := fun _ _ => .exhausted
      block := fun _ _ _ => .exhausted
      all := fun _ _ => .exhausted
      entries := fun _ _ _ => .exhausted
      call := fun _ _ _ => .exhausted
      run := fun _ _ _ _ => .exhausted
      perform := fun _ _ => rfl }
  | n + 1 =>
    have ih := followed m n
    { eval := followed_eval ih
      block := followed_block ih
      all := followed_all ih
      entries := followed_entries ih
      call := followed_call ih
      run := followed_run ih
      perform := followed_perform ih }

/-! ## Where a call stands on the stack -/

/-- However a call ends, the calls that were active before it are those that are active then. -/
theorem callPath_calls {path : Path} {vs : List Value} {s t : State σ} {r : Outcome}
    (h : m.callPath n path vs s = some (r, t)) : t.calls = s.calls := by
  obtain ⟨scopes, calls, world⟩ := s
  have hs := (followed m n).call calls.reverse path vs ⟨scopes, world⟩
  have hstart : Site.under ⟨scopes, world⟩ calls.reverse = ⟨scopes, calls, world⟩ := by
    rw [Site.under, List.reverse_reverse]
  rw [hstart, h] at hs
  generalize Reference.callPath m n calls.reverse path vs ⟨scopes, world⟩ = q at hs
  cases hs with
  | some => exact List.reverse_reverse calls

/-- A stack that is recorded while a function runs has the calls around it at its root. -/
theorem run_stack {name : String} {f : Function} {vs : List Value} {s t : State σ}
    {stack : List Path} {layers : List Layer} {cause : Option Cause}
    (h : m.run n name f vs s = some (.error (.fail ⟨.located stack :: layers, cause⟩), t)) :
    s.calls.reverse <+: stack := by
  have hrel := (paired m m.traced n).run Eq [] s.calls s.calls name f vs s s
    ⟨rfl, rfl, rfl, World.Same.refl s.world⟩
  rw [show m.tracing m.traced = m from rfl, h] at hrel
  cases hrel with
  | some hp =>
    cases hp.1 with
    | error hx =>
      cases hx with
      | fail hmoved =>
        cases hmoved with
        | bare hbare => cases hbare
        | located => exact List.prefix_append ..

/-- What fails while a function runs, fails with the calls around it at the root of its stack. -/
theorem run_under {active : List Path} {name : String} {f : Function} {vs : List Value}
    {s t : Site σ} {x : Mishap} (h : Reference.run m n active name f vs s = some (.error x, t)) :
    active <+: x.active := by
  have hs := (followed m n).run active name f vs s
  rw [h] at hs
  generalize hq : m.run n name f vs (s.under active) = q at hs
  cases hs with
  | some hr =>
    cases hr with
    | error hy =>
      obtain ⟨hshows⟩ := hy
      cases hshows with
      | bare => exact List.prefix_refl _
      | recorded =>
        have hstack := run_stack hq
        rwa [Site.under, List.reverse_reverse] at hstack

theorem callee_under {active : List Path} {path : Path} {vs : List Value} {s t : Site σ}
    {f : Function} {held : Held} {x : Mishap}
    (hf : m.registry.acquire path s.world.held = .ok (f, held))
    (h : Reference.callPath m n active path vs s = some (.error x, t)) :
    active ++ [path] <+: x.active := by
  cases n with
  | zero => cases h
  | succ n =>
    rw [Reference.callPath] at h
    simp only [hf] at h
    split at h
    · cases h
    · next r u hrun =>
      cases h
      exact run_under hrun

theorem lookup_under {active : List Path} {path : Path} {s : Site σ} {c : Cause} (vs : List Value)
    (h : m.registry.acquire path s.world.held = .error c) :
    Reference.callPath m (n + 1) active path vs s = some (.error ⟨.ofCause c, active⟩, s) := by
  rw [Reference.callPath]
  simp only [h]

theorem arguments_under {active : List Path} {es : List Expr} {s t : Site σ} {x : Exit} (path : Path)
    (h : Reference.evalAll m n active es s = some (.error x, t)) :
    Reference.eval m (n + 1) active (.call path es) s = some (.error x, t) := by
  rw [Reference.eval]
  change (Reference.evalAll m n active es s >>= _) = _
  rw [h]
  rfl

theorem notes_located (x : Mishap) : (Diagnostic.ofFailure (some x.located)).notes
    = (x.active.rtake (min 8 x.active.length)).reverse.map (⟨"in call to", ·⟩) := by
  have htake : x.active.reverse.take (min 8 x.active.length) = x.active.reverse.take 8 := by
    rw [← List.length_reverse]
    exact List.take_eq_take_min.symm
  rw [List.rtake_eq_reverse_take_reverse, List.reverse_reverse, htake]
  rfl

/-- The evaluator shows what the reference evaluator records: a failure carries the calls that were
active where it arose, and the report on it notes the last eight of them, the innermost first. The
callee is among them if the failure arises while it runs, and it is not if the failure arises in its
arguments or because it cannot be had; a call that has ended is active no longer. -/
theorem stack_active (m : Machine σ) :
    (∀ n e w, m.evaluate n e w = (Reference.evaluate m n e w).map Reference.shown) ∧
    (∀ n path vs w, m.call n path vs w = (Reference.call m n path vs w).map Reference.shown) ∧
    (∀ x : Mishap, x.located.isLocated = true ∧ x.located.stack? = some x.active ∧
      (Diagnostic.ofFailure (some x.located)).notes
        = (x.active.rtake (min 8 x.active.length)).reverse.map (⟨"in call to", ·⟩)) ∧
    (∀ n active path vs s t f held x, m.registry.acquire path s.world.held = .ok (f, held) →
      Reference.callPath m n active path vs s = some (.error x, t) →
      active ++ [path] <+: x.active) ∧
    (∀ n active path es s t x, Reference.evalAll m n active es s = some (.error x, t) →
      Reference.eval m (n + 1) active (.call path es) s = some (.error x, t)) ∧
    (∀ n active path vs s c, m.registry.acquire path s.world.held = .error c →
      Reference.callPath m (n + 1) active path vs s = some (.error ⟨.ofCause c, active⟩, s)) ∧
    ∀ n path vs s r t, m.callPath n path vs s = some (r, t) → t.calls = s.calls := by
  refine ⟨fun n e w => ?_, fun n path vs w => ?_, fun x => ⟨rfl, rfl, notes_located x⟩, ?_, ?_, ?_, ?_⟩
  · exact apart_follows ((followed m n).eval [] e) w
  · exact apart_follows (.adapt ((followed m n).call [] path vs)) w
  · intro n active path vs s t f held x hf h
    exact callee_under hf h
  · intro n active path es s t x h
    exact arguments_under path h
  · intro n active path vs s c h
    exact lookup_under vs h
  · intro n path vs s r t h
    exact callPath_calls h

/-! An instance: `f` is about to be called with what `g` makes of too many arguments, after a call of
`done` has ended. -/

def nested : Machine Unit where
  registry := ⟨[("m", ⟨"m", [("done", .defined [] none), ("f", .defined ["x"] (some [.var "x"])),
    ("g", .defined [] (some [])),
    ("top", .defined [] (some [.call ⟨"m", "done"⟩ [],
      .call ⟨"m", "f"⟩ [.call ⟨"m", "g"⟩ [.integer 1]]]))], []⟩)]⟩
  handlers := fun _ _ => .reply .none
  traced := true

theorem stack_active_nested :
    ∃ x w, Reference.evaluate nested 20 (.call ⟨"m", "top"⟩ []) (World.start ())
        = some (.error x, w) ∧
      nested.evaluate 20 (.call ⟨"m", "top"⟩ []) (World.start ()) = some (.error x.located, w) ∧
      x.failure = .ofCause (.arity "g" 0 1) ∧ x.active = [⟨"m", "top"⟩, ⟨"m", "g"⟩] ∧
      (Diagnostic.ofFailure (some x.located)).notes
        = [⟨"in call to", ⟨"m", "g"⟩⟩, ⟨"in call to", ⟨"m", "top"⟩⟩] := by
  obtain ⟨heval, -, hshown, -⟩ := stack_active nested
  have h : ∃ w, Reference.evaluate nested 20 (.call ⟨"m", "top"⟩ []) (World.start ())
      = some (.error ⟨.ofCause (.arity "g" 0 1), [⟨"m", "top"⟩, ⟨"m", "g"⟩]⟩, w) := ⟨_, rfl⟩
  obtain ⟨w, h⟩ := h
  refine ⟨_, w, h, ?_, rfl, rfl, ?_⟩
  · rw [heval, h]
    rfl
  · exact (hshown _).2.2

end Machine

end Arbor
