import Arbor.Text.Quoted
import Arbor.Value.Basic

/-!
Values as text. `inspect` tells values of different kinds apart by quoting strings; `display` shows
a string at the top without quotes.
-/

set_option autoImplicit false

namespace Arbor.Value

mutual

/-- The unambiguous text of a value. -/
def inspect : Value → String
  | string s => Text.quote s
  | integer n => toString n.toInt
  | float x => x.text
  | bool true => "true"
  | bool false => "false"
  | none => "none"
  | list _ es => "[" ++ String.intercalate ", " (inspectElements es) ++ "]"
  | object _ fs => "\x7b" ++ String.intercalate ", " (inspectFields fs) ++ "\x7d"
  | missing => "<nil>"

def inspectElements : List Value → List String
  | [] => []
  | v :: rest => inspect v :: inspectElements rest

def inspectFields : List (String × Value) → List String
  | [] => []
  | (k, v) :: rest => (k ++ ": " ++ inspect v) :: inspectFields rest

end

def display : Value → String
  | string s => s
  | v => inspect v

end Arbor.Value
