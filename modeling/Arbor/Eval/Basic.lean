import Arbor.Eval.State
import Arbor.Value.Narrow
import Arbor.Value.Render

/-!
Evaluation of trees.

Blocks, elements, entries and arguments are evaluated from left to right and the first one that
stops ends them. A loop takes breaks, a function call takes returns, and a break that reaches a call
is a failure. A call resolves its path only after its arguments, holds a native function for as long
as it runs, and records the active calls on every failure that passes it. Handlers may call back
into the interpreter; such a call starts with no scopes and no active calls.

All functions take fuel, which every step spends by one. An evaluation that ends does so with any
greater amount too; only one that does not end lacks an answer for every amount.
-/

set_option autoImplicit false

namespace Arbor

/-- What stays the same during an evaluation. -/
structure Machine (σ : Type) where
  /-- The modules that are loaded; no handler can load another one. -/
  registry : Registry
  handlers : Handlers σ
  traced : Bool

/-- The result of an evaluation seen from outside: stops that nothing took become failures, and a
failure that no call has recorded is recorded here. -/
def settle (stack : List Path) : Except Stop Value → Except Failure Value
  | .ok v => .ok v.orNone
  | .error (.ret _) => .error ((Failure.ofCause (.controlFlow .returned)).locate stack)
  | .error (.brk _) => .error ((Failure.ofCause (.controlFlow .broke)).locate stack)
  | .error (.fail f) => .error (f.locate stack)

/-- Runs a computation in a context of its own. -/
def apart {σ : Type} (c : Eval σ Value) (w : World σ) : Option (Except Failure Value × World σ) :=
  match c (State.start w) with
  | none => none
  | some (r, t) => some (settle t.calls.reverse r, t.world)

/-- What a function call makes of the end of a function body. -/
def boundary (function : String) : Except Stop Value → Except Stop Value
  | .ok v => .ok v
  | .error (.ret v) => .ok v
  | .error (.brk _) => .error (.fail (.ofCause (.controlFlow (.brokeIn function))))
  | .error (.fail f) => .error (.fail f)

def checkArity (function : String) (expected : Nat) (arguments : List Value) : Except Cause Unit :=
  if arguments.length = expected then .ok () else .error (.arity function expected arguments.length)

namespace Machine

variable {σ : Type}

/-- The world with an event recorded, if calls are recorded. -/
def note (m : Machine σ) (e : Unit → Event) (w : World σ) : World σ :=
  if m.traced then { w with events := e () :: w.events } else w

/-- The state in which a function that was taken into use begins to run. -/
def enter (m : Machine σ) (path : Path) (f : Function) (arguments : Nat) (held : Held)
    (s : State σ) : State σ :=
  let calls := path :: s.calls
  let begins := fun _ => Event.called path f.kind arguments calls.length
  { s with calls := calls, world := m.note begins { s.world with held := held } }

/-- The state after a call: its end is recorded, it is no longer active and its function is free. -/
def leave (m : Machine σ) (f : Function) (ends : Unit → Event) (s : State σ) : State σ :=
  let w := m.note ends s.world
  { s with calls := s.calls.tail, world := { w with held := f.release w.held } }

mutual

def eval (m : Machine σ) : Nat → Expr → Eval σ Value
  | 0, _ => Eval.exhausted
  | _ + 1, .absent => Eval.pure .none
  | _ + 1, .empty .block => Eval.pure .none
  | _ + 1, .empty type => Eval.refuse (.unsupported (.evaluateEmpty type))
  | n + 1, .block body => evalBlock m n .none body
  | n + 1, .assign name e => do
    let v ← eval m n e
    Eval.bindName name v
    Eval.pure v
  | _ + 1, .var name => Eval.readName name
  | _ + 1, .string s => Eval.pure (.string s)
  | _ + 1, .integer i => Eval.pure (.integer i)
  | _ + 1, .float x => Eval.pure (.float x)
  | _ + 1, .bool b => Eval.pure (.bool b)
  | n + 1, .list es => do
    let vs ← evalAll m n es
    let h ← Eval.newHandle
    Eval.pure (.list h vs)
  | n + 1, .map es => do
    let fs ← evalEntries m n [] es
    let h ← Eval.newHandle
    Eval.pure (.object h fs)
  | n + 1, .call path es => do
    let vs ← evalAll m n es
    callPath m n path vs
  | n + 1, .cond test a b => do
    let v ← eval m n test
    let yes ← Eval.ofCheck v.expectTest
    if yes then eval m n a else eval m n b
  | n + 1, .loop body => do
    match ← Eval.result (eval m n body) with
    | .ok _ => eval m n (.loop body)
    | .error (.brk v) => Eval.pure v
    | .error e => Eval.stop e
  | n + 1, .ret e => do
    let v ← eval m n e
    Eval.stop (.ret v)
  | n + 1, .brk e => do
    let v ← eval m n e
    Eval.stop (.brk v)

/-- Evaluates expressions for the value of the last one, or the given value if there are none. -/
def evalBlock (m : Machine σ) : Nat → Value → List Expr → Eval σ Value
  | 0, _, _ => Eval.exhausted
  | _ + 1, last, [] => Eval.pure last
  | n + 1, _, e :: es => do
    let v ← eval m n e
    evalBlock m n v es

def evalAll (m : Machine σ) : Nat → List Expr → Eval σ (List Value)
  | 0, _ => Eval.exhausted
  | _ + 1, [] => Eval.pure []
  | n + 1, e :: es => do
    let v ← eval m n e
    let vs ← evalAll m n es
    Eval.pure (v :: vs)

/-- Evaluates the entries of a map on top of the fields so far. -/
def evalEntries (m : Machine σ) : Nat → Table Value → List Entry → Eval σ (Table Value)
  | 0, _, _ => Eval.exhausted
  | _ + 1, fields, [] => Eval.pure fields
  | n + 1, fields, .blank :: es => evalEntries m n fields es
  | n + 1, fields, .field key e :: es => do
    let v ← eval m n e
    evalEntries m n (Table.insert fields key v) es

def callPath (m : Machine σ) : Nat → Path → List Value → Eval σ Value
  | 0, _, _ => Eval.exhausted
  | n + 1, path, vs => fun s =>
    match m.registry.acquire path s.world.held with
    | .error c => Eval.failHere (.ofCause c) s
    | .ok (f, held) =>
      match run m n path.item f vs (m.enter path f vs.length held s) with
      | none => none
      | some (.ok v, t) => some (.ok v, m.leave f (fun _ => .returned path v.inspect) t)
      | some (.error e, t) =>
        let ends := fun _ => Event.failed path e.failure.message
        some (.error (.fail (e.failure.locate t.calls.reverse)), m.leave f ends t)

def run (m : Machine σ) : Nat → String → Function → List Value → Eval σ Value
  | 0, _, _, _ => Eval.exhausted
  | n + 1, name, .defined parameters body, vs => do
    Eval.ofCheck (checkArity name parameters.length vs)
    match body with
    | none => Eval.pure .none
    | some es =>
      let r ← Eval.inFrame (Frame.seed parameters vs false) (evalBlock m n .none es)
      Eval.done (boundary name r)
  | n + 1, name, .native id arity handled, vs => do
    Eval.ofCheck (checkArity name arity vs)
    if handled then
      match ← Eval.onWorld (perform m n (m.handlers id vs)) with
      | .ok v => Eval.pure v.orNone
      | .error f => Eval.fail (f.wrap (.native name))
    else Eval.refuse (.unsupported (.callWithoutHandler name))
  | _ + 1, _, .imported target, _ => Eval.refuse (.unsupported (.callImported target))

def perform (m : Machine σ) : Nat → Action σ → World σ → Option (Except Failure Value × World σ)
  | 0, _, _ => none
  | _ + 1, .reply v, w => some (.ok v, w)
  | _ + 1, .refuse f, w => some (.error f, w)
  | n + 1, .get next, w => perform m n (next w.host) w
  | n + 1, .put host next, w => perform m n next { w with host := host }
  | n + 1, .list vs next, w => perform m n (next (.list w.fresh vs)) w.skipHandle
  | n + 1, .object fs next, w => perform m n (next (.object w.fresh fs)) w.skipHandle
  | n + 1, .call path vs next, w =>
    (apart (callPath m n path vs) w).bind fun p => perform m n (next p.1) p.2
  | n + 1, .evaluate e next, w =>
    (apart (eval m n e) w).bind fun p => perform m n (next p.1) p.2
  | n + 1, .acquire path next, w =>
    match m.registry.acquire path w.held with
    | .error c => perform m n (next (.error c)) w
    | .ok (f, held) => perform m n (next (.ok f)) { w with held := held }
  | n + 1, .release f next, w => perform m n next { w with held := f.release w.held }

end

def evaluate (m : Machine σ) (fuel : Nat) (e : Expr) (w : World σ) :
    Option (Except Failure Value × World σ) :=
  apart (m.eval fuel e) w

def call (m : Machine σ) (fuel : Nat) (path : Path) (vs : List Value) (w : World σ) :
    Option (Except Failure Value × World σ) :=
  apart (m.callPath fuel path vs) w

end Machine

end Arbor
