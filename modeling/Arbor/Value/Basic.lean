import Arbor.Number.Decimal
import Arbor.Table

/-!
Runtime values.

Scalars are compared by what they hold. Lists and objects carry a handle, the identity they got when
they were built; two values with one handle are the same container. `missing` stands for a value
that a host failed to supply; it is of no kind.
-/

set_option autoImplicit false

namespace Arbor

/-- The identity of a list or an object. -/
abbrev Handle := Nat

/-- The kinds of values, and any number that names none of them. -/
inductive Kind where
  | string | integer | float | bool | list | object | none
  | unknown (code : Int)
  deriving DecidableEq, Repr

namespace Kind

def ofCode (code : Int) : Kind :=
  match code with
  | 0 => string
  | 1 => integer
  | 2 => float
  | 3 => bool
  | 4 => list
  | 5 => object
  | 6 => none
  | n => unknown n

def text : Kind → String
  | string => "string"
  | integer => "integer"
  | float => "float"
  | bool => "bool"
  | list => "list"
  | object => "object"
  | none => "none"
  | unknown code => "unknown_kind_" ++ toString code

def ofText? (s : String) : Option Kind :=
  [string, integer, float, bool, list, object, none].find? (·.text == s)

end Kind

/-- A value; the fields of an object are ordered by name. -/
inductive Value where
  | string (value : String)
  | integer (value : Int32)
  | float (value : Single)
  | bool (value : Bool)
  | none
  | list (handle : Handle) (elements : List Value)
  | object (handle : Handle) (fields : List (String × Value))
  | missing

namespace Value

/-- The kind of a value; a missing value has none. -/
def kind? : Value → Option Kind
  | string _ => some .string
  | integer _ => some .integer
  | float _ => some .float
  | bool _ => some .bool
  | none => some .none
  | list .. => some .list
  | object .. => some .object
  | missing => Option.none

def kindText (v : Value) : String :=
  match v.kind? with
  | some k => k.text
  | Option.none => "<nil>"

def isNone : Value → Bool
  | none => true
  | _ => false

def orNone : Value → Value
  | missing => none
  | v => v

def size : Value → Nat
  | list _ es => es.length
  | object _ fs => fs.length
  | _ => 0

def at? : Value → Int → Option Value
  | list _ es, i => if i < 0 then Option.none else es[i.toNat]?
  | _, _ => Option.none

def get? : Value → String → Option Value
  | object _ fs, key => Table.find? fs key
  | _, _ => Option.none

def keys : Value → List String
  | object _ fs => Table.keys fs
  | _ => []

mutual

/-- Structural equality. Containers are equal if they are the same or hold equal parts; a missing
value and a NaN equal nothing. -/
def equal : Value → Value → Bool
  | string a, string b => a == b
  | integer a, integer b => a == b
  | float a, float b => a.same b
  | bool a, bool b => a == b
  | none, none => true
  | list h xs, list k ys => h == k || (xs.length == ys.length && equalElements xs ys)
  | object h fs, object k gs => h == k || (fs.length == gs.length && equalFields fs gs)
  | _, _ => false

def equalElements : List Value → List Value → Bool
  | [], _ => true
  | x :: xs, y :: ys => equal x y && equalElements xs ys
  | _ :: _, [] => false

/-- Whether each field has an equal one of the same name in the table. -/
def equalFields : List (String × Value) → Table Value → Bool
  | [], _ => true
  | (k, x) :: fs, gs =>
    match Table.find? gs k with
    | some y => equal x y && equalFields fs gs
    | Option.none => false

end

end Value

end Arbor
