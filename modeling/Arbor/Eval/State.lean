import Arbor.Eval.Host
import Arbor.Eval.Trace
import Arbor.Scope

/-!
The state of an evaluation and computations on it.

The `World` outlives one evaluation: the host's state, the native functions in use, the next free
handle and the trace. A `State` adds what belongs to one evaluation context, its scopes and its
active calls. A computation of type `Eval σ α` changes the state and ends with a result, or with a
`Stop`: a return or break on its way to the place that takes it, or a failure. It has no answer at
all if it runs out of fuel.
-/

set_option autoImplicit false

namespace Arbor

structure World (σ : Type) where
  host : σ
  held : Held
  fresh : Handle
  /-- The events so far, the latest first. -/
  events : List Event

def World.start {σ : Type} (host : σ) : World σ := ⟨host, [], 0, []⟩

/-- The world in which the next free handle is given away. -/
def World.skipHandle {σ : Type} (w : World σ) : World σ := { w with fresh := w.fresh + 1 }

structure State (σ : Type) where
  scopes : Scopes
  /-- The active calls, the innermost first. -/
  calls : List Path
  world : World σ

def State.start {σ : Type} (w : World σ) : State σ := ⟨Scopes.empty, [], w⟩

def State.push {σ : Type} (s : State σ) (f : Frame) : State σ := { s with scopes := s.scopes.push f }

def State.pop {σ : Type} (s : State σ) : State σ := { s with scopes := s.scopes.pop }

/-- How an evaluation ends without a plain value. -/
inductive Stop where
  | ret (value : Value)
  | brk (value : Value)
  | fail (failure : Failure)

def Stop.failure : Stop → Failure
  | .ret _ => .ofCause (.stray .ret)
  | .brk _ => .ofCause (.stray .brk)
  | .fail f => f

/-- A computation on the state; without an answer it has run out of fuel. -/
def Eval (σ α : Type) := State σ → Option (Except Stop α × State σ)

namespace Eval

variable {σ α β : Type}

protected def pure (a : α) : Eval σ α := fun s => some (.ok a, s)

protected def bind (m : Eval σ α) (f : α → Eval σ β) : Eval σ β := fun s =>
  match m s with
  | none => none
  | some (.ok a, t) => f a t
  | some (.error e, t) => some (.error e, t)

instance : Monad (Eval σ) where
  pure := Eval.pure
  bind := Eval.bind

def stop (e : Stop) : Eval σ α := fun s => some (.error e, s)

def fail (f : Failure) : Eval σ α := stop (.fail f)

def refuse (c : Cause) : Eval σ α := fail (.ofCause c)

def exhausted : Eval σ α := fun _ => none

/-- Goes on in either case. -/
def result (m : Eval σ α) : Eval σ (Except Stop α) := fun s =>
  match m s with
  | none => none
  | some (r, t) => some (.ok r, t)

def done (r : Except Stop α) : Eval σ α := fun s => some (r, s)

/-- The result of a check that may name a cause. -/
def ofCheck (r : Except Cause α) : Eval σ α :=
  match r with
  | .ok a => Eval.pure a
  | .error c => refuse c

/-- Stops with a failure and records the active calls on it. -/
def failHere (f : Failure) : Eval σ α := fun s => fail (f.locate s.calls.reverse) s

/-- Goes on in either case, after a computation with a frame on top of the scopes; the frame is
taken away however the computation ends. -/
def inFrame (f : Frame) (m : Eval σ α) : Eval σ (Except Stop α) := fun s =>
  match m (s.push f) with
  | none => none
  | some (r, t) => some (.ok r, t.pop)

/-- Goes on with what came out of the world alone. -/
def onWorld (c : World σ → Option (α × World σ)) : Eval σ α := fun s =>
  match c s.world with
  | none => none
  | some (a, w) => some (.ok a, { s with world := w })

/-- A handle that no container has. -/
def newHandle : Eval σ Handle := fun s =>
  some (.ok s.world.fresh, { s with world := s.world.skipHandle })

def bindName (name : String) (v : Value) : Eval σ Unit := fun s =>
  match s.scopes.insert? name v with
  | some scopes => some (.ok (), { s with scopes := scopes })
  | none => refuse (.controlFlow (.assigned name)) s

def readName (name : String) : Eval σ Value := fun s =>
  match s.scopes.lookup? name with
  | some v => some (.ok v, s)
  | none => refuse (.unboundVariable name) s

end Eval

end Arbor
