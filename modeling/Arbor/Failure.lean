import Arbor.Text.Blank
import Arbor.Tree.Basic
import Arbor.Value.Basic

/-!
Failures of evaluation.

A failure is a chain: a cause, and around it the layers it got on its way out, the outermost first.
A `located` layer records the calls that were active, a `native` layer the host function whose
handler failed, and a `noted` layer any wording a host puts around a failure. The category of a
failure is found by searching the whole chain for one category after the other.
-/

set_option autoImplicit false

namespace Arbor

/-- A return, break or assignment where nothing can take it. -/
inductive Misplaced where
  | returned
  | broke
  | brokeIn (function : String)
  | assigned (name : String)
  | stated (message : String)
  deriving DecidableEq, Repr

def Misplaced.text : Misplaced → String
  | returned => "return outside of function"
  | broke => "break outside of loop"
  | brokeIn f => "break outside of loop in function '" ++ f ++ "'"
  | assigned name => "assignment to '" ++ name ++ "' outside of a function scope"
  | stated message => message

inductive Operation where
  | evaluateEmpty (type : NodeType)
  | callWithoutHandler (function : String)
  | callWithoutContext (function : String)
  | callImported (target : Path)
  | stated (operation : String)
  deriving DecidableEq, Repr

def Operation.text : Operation → String
  | evaluateEmpty type => "evaluating nil *ast." ++ type.text
  | callWithoutHandler f => "native function '" ++ f ++ "' has no handler"
  | callWithoutContext f => "calling '" ++ f ++ "' without an evaluation context"
  | callImported target => "calling imported function '" ++ target.text ++ "'"
  | stated operation => operation

/-- The two ways to leave an expression early. -/
inductive Jump where
  | ret | brk
  deriving DecidableEq, Repr

def Jump.text : Jump → String
  | ret => "return"
  | brk => "break"

inductive Cause where
  | arity (function : String) (expected got : Int)
  | unboundVariable (name : String)
  | unboundFunction (path : Path)
  | unknownModule (module : String)
  | kind (expected : Kind) (got : String) (context : String)
  | controlFlow (what : Misplaced)
  | unsupported (operation : Operation)
  | reentrant (path : Path)
  /-- A jump that was taken for a failure. -/
  | stray (jump : Jump)
  /-- A failure in a host's own words. -/
  | foreign (message : String)
  deriving DecidableEq, Repr

namespace Cause

def message : Cause → String
  | arity f expected got =>
    "function '" ++ f ++ "' expects " ++ toString expected ++ " arguments, got " ++ toString got
  | unboundVariable name => "undefined variable '" ++ name ++ "'"
  | unboundFunction path => "module '" ++ path.module ++ "' has no function '" ++ path.item ++ "'"
  | unknownModule module => "unknown module '" ++ module ++ "'"
  | kind expected got context =>
    if context = "" then "expected " ++ expected.text ++ ", got " ++ got
    else context ++ " must be " ++ expected.text ++ ", got " ++ got
  | controlFlow what => what.text
  | unsupported operation => "unsupported operation: " ++ operation.text
  | reentrant path => "function '" ++ path.text ++ "' is already executing"
  | stray jump => jump.text
  | foreign text => text

/-- The categories of causes, in the order in which a chain is searched for them. -/
def categories : List String :=
  ["ArityError", "UnboundVariable", "UnboundFunction", "UnknownModule", "TypeError",
    "ControlFlowError", "UnsupportedOperation", "ReentrantCall"]

/-- The category of a cause; a jump and a host's own cause have none. -/
def category? : Cause → Option String
  | arity .. => some "ArityError"
  | unboundVariable _ => some "UnboundVariable"
  | unboundFunction _ => some "UnboundFunction"
  | unknownModule _ => some "UnknownModule"
  | kind .. => some "TypeError"
  | controlFlow _ => some "ControlFlowError"
  | unsupported _ => some "UnsupportedOperation"
  | reentrant _ => some "ReentrantCall"
  | stray _ => none
  | foreign _ => none

end Cause

inductive Layer where
  /-- The calls that were active, the outermost first. -/
  | located (stack : List Path)
  | native (function : String)
  | noted (before after : String)
  deriving DecidableEq, Repr

/-- The category of a layer; only a failed handler has one. -/
def Layer.category? : Layer → Option String
  | native _ => some "NativeError"
  | _ => none

/-- Layers around a cause, the outermost first; a host may leave the cause out. -/
structure Failure where
  layers : List Layer
  cause : Option Cause
  deriving DecidableEq, Repr

namespace Failure

def ofCause (c : Cause) : Failure := ⟨[], some c⟩

def wrap (l : Layer) (f : Failure) : Failure := { f with layers := l :: f.layers }

def isLocated (f : Failure) : Bool :=
  match f.layers with
  | .located _ :: _ => true
  | _ => false

/-- Records the active calls, unless the outermost layer already does. -/
def locate (f : Failure) (stack : List Path) : Failure :=
  if f.isLocated then f else f.wrap (.located stack)

/-- The wording of a chain; nothing at all has none. -/
def message? : List Layer → Option Cause → Option String
  | [], c => c.map Cause.message
  | .located _ :: ls, c => some ((message? ls c).getD "")
  | .native f :: ls, c =>
    some ("native function '" ++ f ++ "' failed: " ++ (message? ls c).getD "<nil>")
  | .noted before after :: ls, c => some (before ++ (message? ls c).getD "" ++ after)

def message (f : Failure) : String := (message? f.layers f.cause).getD ""

/-- The stack recorded by the outermost layer that records one. -/
def stack? (f : Failure) : Option (List Path) :=
  f.layers.findSome? fun
    | .located stack => some stack
    | _ => none

/-- Whether a link of the chain is of that category. -/
def meets (f : Failure) (category : String) : Bool :=
  f.layers.any (·.category? == some category) || f.cause.bind Cause.category? == some category

/-- All categories, in the order in which a chain is searched for them. -/
def categories : List String := Cause.categories ++ ["NativeError"]

/-- The category of a failure: the first one of which there is a link anywhere in the chain, empty if
there is no such link. -/
def category (f : Failure) : String := (categories.find? f.meets).getD ""

end Failure

/-! ## Reports -/

structure Note where
  message : String
  path : Path
  deriving DecidableEq, Repr

structure Diagnostic where
  category : String
  message : String
  notes : List Note
  deriving DecidableEq, Repr

namespace Diagnostic

def maxNotes : Nat := 8

/-- The report on a failure, with the innermost calls first; there may be no failure. -/
def ofFailure : Option Failure → Diagnostic
  | none => ⟨"", "", []⟩
  | some f =>
    let stack := (f.stack?.getD []).reverse.take maxNotes
    ⟨f.category, f.message, stack.map (⟨"in call to", ·⟩)⟩

/-- The report as text: one line, and one more for each note. -/
def text (d : Diagnostic) : String :=
  let head := "runtime: " ++ (if d.category = "" then "" else d.category ++ ": ")
  let notes := d.notes.map fun n => "\nnote: " ++ n.message ++ " " ++ n.path.text
  head ++ Text.trim d.message ++ String.join notes

end Diagnostic

end Arbor
