import Arbor.Registry

/-!
What the host does.

The handler of a native function is a small program: it may read and replace the state of the host,
build lists and objects, call functions of the interpreter and evaluate expressions, take functions
into use and give them free, and ends with a value or a failure. Containers get their handles from
the evaluator, so a handler can make new ones only through `list` and `object`.

A host may also load a module, or register one, while an evaluation is under way. Handlers that do so
are left out: modules are loaded by a session, between evaluations.
-/

set_option autoImplicit false

namespace Arbor

/-- The course of a handler, over a host state of type `σ`. -/
inductive Action (σ : Type) where
  /-- Ends with a value; a missing one counts as none. -/
  | reply (value : Value)
  | refuse (failure : Failure)
  | get (next : σ → Action σ)
  | put (state : σ) (next : Action σ)
  | list (elements : List Value) (next : Value → Action σ)
  | object (fields : List (String × Value)) (next : Value → Action σ)
  /-- Calls a function in a context of its own. -/
  | call (path : Path) (arguments : List Value) (next : Except Failure Value → Action σ)
  /-- Evaluates an expression in a context of its own. -/
  | evaluate (expression : Expr) (next : Except Failure Value → Action σ)
  | acquire (path : Path) (next : Except Cause Function → Action σ)
  | release (function : Function) (next : Action σ)

/-- The handlers of the native functions; each gets exactly as many arguments as it takes. -/
abbrev Handlers (σ : Type) := NativeId → List Value → Action σ

namespace Action

variable {σ : Type}

def fail (message : String) : Action σ := .refuse (.ofCause (.foreign message))

/-- Goes on with a value that was narrowed, or ends with the failure to narrow it. -/
def narrowed {α : Type} (r : Except Cause α) (next : α → Action σ) : Action σ :=
  match r with
  | .ok a => next a
  | .error c => .refuse (.ofCause c)

end Action

end Arbor
