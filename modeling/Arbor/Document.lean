import Arbor.Number.Decimal
import Arbor.Table

/-!
Documents: the data a text in JSON or YAML holds, whatever the notation.

Numbers keep what is known of them: the literal as it was written, or the integer or double it was
read as. A value that no tree uses, such as a date or a mapping with keys that are no strings, is
`other`.
-/

set_option autoImplicit false

namespace Arbor

inductive Numeral where
  | literal (text : String)
  | integer (value : Int)
  | double (value : Double)
  deriving DecidableEq, Repr

/-- The contents of a document; the fields of an object are ordered by name. -/
inductive Document where
  | null
  | bool (value : Bool)
  | string (value : String)
  | number (value : Numeral)
  | list (items : List Document)
  | object (fields : List (String × Document))
  | other

/-- A step from a value in a document to one of its parts. -/
inductive Step where
  | field (name : String)
  | index (n : Nat)
  deriving DecidableEq, Repr

/-- A place in a document: the steps to it from the top, the last one first. -/
abbrev Place := List Step

/-- The place as text, from `$` for the whole document. -/
def Place.text : Place → String
  | [] => "$"
  | .field name :: up => Place.text up ++ "." ++ name
  | .index n :: up => Place.text up ++ "[" ++ toString n ++ "]"

end Arbor
