import Arbor.Failure

/-!
Narrowing: taking a value as one of a certain kind, or failing with the kind that was expected and
the kind that was found.
-/

set_option autoImplicit false

namespace Arbor.Value

/-- The failure to find a value of the expected kind. -/
def mismatch (expected : Kind) (v : Value) (context : String) : Cause :=
  .kind expected v.kindText context

def expect (expected : Kind) (v : Value) : Except Cause Value :=
  if v.kind? = some expected then .ok v else .error (mismatch expected v "")

def expectString : Value → Except Cause String
  | string s => .ok s
  | v => .error (mismatch .string v "")

def expectInteger : Value → Except Cause Int32
  | integer n => .ok n
  | v => .error (mismatch .integer v "")

def expectList : Value → Except Cause (List Value)
  | list _ es => .ok es
  | v => .error (mismatch .list v "")

/-- The truth value a condition needs. -/
def expectTest : Value → Except Cause Bool
  | bool b => .ok b
  | v => .error (mismatch .bool v "condition")

end Arbor.Value
