import Arbor.Proofs.Eval.Rules
import Mathlib.Logic.Relation

/-!
The moments of a run.

The rules say how an evaluation ends. What an evaluation goes through on its way, whether it ends or
not, are its moments: an expression, a row of expressions, a call, a function, a handler is about to
run in some state. `Leads m a b` says that what begins at `a` comes to `b` next, or next after parts
of it that have ended; `Reaches` is any number of such steps.
-/

set_option autoImplicit false

namespace Arbor

variable {σ : Type}

theorem Registry.resolve_of_acquire {r : Registry} {path : Path} {f : Function} {held held' : Held}
    (h : r.acquire path held = .ok (f, held')) : r.resolve path = .ok f :=
  (Registry.acquire_eq_ok_iff.1 h).1

/-- What is about to run. -/
inductive Moment (σ : Type) where
  | expr (e : Expr) (s : State σ)
  | order (es : List Expr) (s : State σ)
  | call (path : Path) (arguments : List Value) (s : State σ)
  | run (name : String) (f : Function) (arguments : List Value) (s : State σ)
  /-- A handler is about to get its arguments. -/
  | handler (id : NativeId) (arguments : List Value) (w : World σ)
  /-- A handler goes on in this way. -/
  | act (a : Action σ) (w : World σ)

namespace Machine

inductive Leads (m : Machine σ) : Moment σ → Moment σ → Prop where
  | assign {name : String} {e : Expr} {s : State σ} : Leads m (.expr (.assign name e) s) (.expr e s)
  | block {es : List Expr} {s : State σ} : Leads m (.expr (.block es) s) (.order es s)
  | list {es : List Expr} {s : State σ} : Leads m (.expr (.list es) s) (.order es s)
  | map {es : List Entry} {s : State σ} :
      Leads m (.expr (.map es) s) (.order (es.filterMap Entry.value?) s)
  | arguments {path : Path} {es : List Expr} {s : State σ} :
      Leads m (.expr (.call path es) s) (.order es s)
  | call {path : Path} {es : List Expr} {vs : List Value} {s t : State σ} :
      InOrder m es s (.ok vs) t → Leads m (.expr (.call path es) s) (.call path vs t)
  | test {test a b : Expr} {s : State σ} : Leads m (.expr (.cond test a b) s) (.expr test s)
  | whenTrue {test a b : Expr} {s t : State σ} :
      Evals m test s (.ok (.bool true)) t → Leads m (.expr (.cond test a b) s) (.expr a t)
  | whenFalse {test a b : Expr} {s t : State σ} :
      Evals m test s (.ok (.bool false)) t → Leads m (.expr (.cond test a b) s) (.expr b t)
  | body {e : Expr} {s : State σ} : Leads m (.expr (.loop e) s) (.expr e s)
  | again {e : Expr} {s t : State σ} {v : Value} :
      Evals m e s (.ok v) t → Leads m (.expr (.loop e) s) (.expr (.loop e) t)
  | ret {e : Expr} {s : State σ} : Leads m (.expr (.ret e) s) (.expr e s)
  | brk {e : Expr} {s : State σ} : Leads m (.expr (.brk e) s) (.expr e s)
  | head {e : Expr} {es : List Expr} {s : State σ} : Leads m (.order (e :: es) s) (.expr e s)
  | tail {e : Expr} {es : List Expr} {s t : State σ} {v : Value} :
      Evals m e s (.ok v) t → Leads m (.order (e :: es) s) (.order es t)
  | enter {path : Path} {vs : List Value} {s : State σ} {f : Function} {held : Held} :
      m.registry.acquire path s.world.held = .ok (f, held) →
      Leads m (.call path vs s) (.run path.item f vs (m.enter path f vs.length held s))
  | defined {name : String} {ps : List String} {es : List Expr} {vs : List Value} {s : State σ} :
      vs.length = ps.length →
      Leads m (.run name (.defined ps (some es)) vs s) (.order es (s.push (Frame.seed ps vs false)))
  | native {name : String} {id : NativeId} {arity : Nat} {vs : List Value} {s : State σ} :
      vs.length = arity →
      Leads m (.run name (.native id arity true) vs s) (.handler id vs s.world)
  | handler {id : NativeId} {vs : List Value} {w : World σ} :
      Leads m (.handler id vs w) (.act (m.handlers id vs) w)
  | get {next : σ → Action σ} {w : World σ} : Leads m (.act (.get next) w) (.act (next w.host) w)
  | put {host : σ} {next : Action σ} {w : World σ} :
      Leads m (.act (.put host next) w) (.act next { w with host := host })
  | makeList {vs : List Value} {next : Value → Action σ} {w : World σ} :
      Leads m (.act (.list vs next) w) (.act (next (.list w.fresh vs)) w.skipHandle)
  | makeObject {fs : List (String × Value)} {next : Value → Action σ} {w : World σ} :
      Leads m (.act (.object fs next) w) (.act (next (.object w.fresh fs)) w.skipHandle)
  | callBack {path : Path} {vs : List Value} {next : Except Failure Value → Action σ} {w : World σ} :
      Leads m (.act (.call path vs next) w) (.call path vs (State.start w))
  | calledBack {path : Path} {vs : List Value} {next : Except Failure Value → Action σ} {w : World σ}
      {r : Outcome} {t : State σ} :
      Calls m path vs (State.start w) r t →
      Leads m (.act (.call path vs next) w) (.act (next (settle t.calls.reverse r)) t.world)
  | evaluate {e : Expr} {next : Except Failure Value → Action σ} {w : World σ} :
      Leads m (.act (.evaluate e next) w) (.expr e (State.start w))
  | evaluated {e : Expr} {next : Except Failure Value → Action σ} {w : World σ} {r : Outcome}
      {t : State σ} :
      Evals m e (State.start w) r t →
      Leads m (.act (.evaluate e next) w) (.act (next (settle t.calls.reverse r)) t.world)
  | acquire {path : Path} {next : Except Cause Function → Action σ} {w : World σ} {f : Function}
      {held : Held} :
      m.registry.acquire path w.held = .ok (f, held) →
      Leads m (.act (.acquire path next) w) (.act (next (.ok f)) { w with held := held })
  | acquireRefused {path : Path} {next : Except Cause Function → Action σ} {w : World σ} {c : Cause} :
      m.registry.acquire path w.held = .error c →
      Leads m (.act (.acquire path next) w) (.act (next (.error c)) w)
  | release {f : Function} {next : Action σ} {w : World σ} :
      Leads m (.act (.release f next) w) (.act next { w with held := f.release w.held })

/-- The run that begins at the first moment comes to the second. -/
def Reaches (m : Machine σ) : Moment σ → Moment σ → Prop := Relation.ReflTransGen (Leads m)

/-- It holds at every moment that the run comes to. -/
def Throughout (m : Machine σ) (P : Moment σ → Prop) (a : Moment σ) : Prop := ∀ b, Reaches m a b → P b

theorem Throughout.here {m : Machine σ} {P : Moment σ → Prop} {a : Moment σ}
    (h : Throughout m P a) : P a :=
  h a .refl

theorem Throughout.step {m : Machine σ} {P : Moment σ → Prop} {a b : Moment σ}
    (h : Throughout m P a) (hl : Leads m a b) : Throughout m P b :=
  fun c hc => h c (Relation.ReflTransGen.head hl hc)

end Machine

end Arbor
