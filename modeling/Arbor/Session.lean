import Arbor.Eval.Basic

/-!
Sessions: a machine with its world, and handles on functions that a host keeps between calls.

Loading a module registers it under a name. `find` takes a function into use and keeps a handle on
it, `invoke` runs the function of a handle outside of any evaluation, and `release` gives the
function free; releasing a handle a second time does nothing.
-/

set_option autoImplicit false

namespace Arbor

/-- A handle on a function; while it is locked it keeps a native function in use. -/
structure Grip where
  function : Function
  path : Path
  locked : Bool

structure Session (σ : Type) where
  machine : Machine σ
  world : World σ
  grips : List Grip

namespace Session

variable {σ : Type}

def start (registry : Registry) (handlers : Handlers σ) (traced : Bool) (host : σ) : Session σ :=
  ⟨⟨registry, handlers, traced⟩, World.start host, []⟩

def register (s : Session σ) (l : Library) : Session σ :=
  { s with machine := { s.machine with registry := s.machine.registry.register l } }

def load (s : Session σ) (name : String) (m : Option Module) : Session σ :=
  s.register (Library.ofModule name m)

/-- Evaluates an expression; without an answer the fuel did not suffice. -/
def evaluate (s : Session σ) (fuel : Nat) (e : Expr) :
    Option (Except Failure Value × Session σ) :=
  (s.machine.evaluate fuel e s.world).map fun (r, w) => (r, { s with world := w })

def call (s : Session σ) (fuel : Nat) (path : Path) (vs : List Value) :
    Option (Except Failure Value × Session σ) :=
  (s.machine.call fuel path vs s.world).map fun (r, w) => (r, { s with world := w })

/-- Takes the function at a path into use and keeps a handle on it in the next slot. -/
def find (s : Session σ) (path : Path) : Except Cause (Grip × Session σ) := do
  let (f, held) ← s.machine.registry.acquire path s.world.held
  let grip : Grip := ⟨f, path, f.kind == .native⟩
  return (grip, { s with world := { s.world with held := held }, grips := s.grips ++ [grip] })

/-- Runs a function outside of any evaluation. -/
def runAlone (m : Machine σ) (fuel : Nat) (name : String) (vs : List Value) :
    Function → World σ → Option (Except Failure Value × World σ)
  | .defined parameters _, w =>
    let c :=
      match checkArity name parameters.length vs with
      | .error c => c
      | .ok () => .unsupported (.callWithoutContext name)
    some (.error (.ofCause c), w)
  | f, w =>
    match m.run fuel name f vs (State.start w) with
    | none => none
    | some (.ok v, t) => some (.ok v, t.world)
    | some (.error e, t) => some (.error e.failure, t.world)

def invoke (s : Session σ) (fuel : Nat) (grip : Grip) (vs : List Value) :
    Option (Except Failure Value × Session σ) :=
  (runAlone s.machine fuel grip.path.item vs grip.function s.world).map fun (r, w) =>
    (r, { s with world := w })

/-- Gives the function of a handle free, if the handle still keeps it in use. -/
def release (s : Session σ) (slot : Nat) : Session σ :=
  match s.grips[slot]? with
  | some grip =>
    if grip.locked then
      { s with
        world := { s.world with held := grip.function.release s.world.held }
        grips := s.grips.set slot { grip with locked := false } }
    else s
  | none => s

/-- The events since the trace was last taken, the earliest first, and the session without them. -/
def takeEvents (s : Session σ) : List Event × Session σ :=
  (s.world.events.reverse, { s with world := { s.world with events := [] } })

end Session

end Arbor
