import Arbor.Registry
import Arbor.Text.Quoted
import Arbor.Text.Utf8

/-!
The trace of an evaluation: one event when a call begins and one when it ends.

An event is written as a line of `key=value` pairs. A value is quoted if it is empty or if a space,
an equals sign, a quote, a control character or a character that cannot be printed stands in it.
-/

set_option autoImplicit false

namespace Arbor

/-- What happens at a call. -/
inductive Event where
  | called (path : Path) (kind : FunctionKind) (arguments : Nat) (depth : Nat)
  | returned (path : Path) (value : String)
  | failed (path : Path) (message : String)
  deriving DecidableEq, Repr

namespace Event

def forcesQuotes (c : Char) : Bool :=
  let n := c.toNat
  if n < 0x80 then c == ' ' || c == '=' || c == '"' || n < 0x20
  else c == Text.replacement || !Text.isPrintable c

def pairValue (s : String) : String :=
  if s.isEmpty || s.any forcesQuotes then Text.quote s else s

/-- A line of pairs after the level and the message. -/
def pairs (message : String) (attributes : List (String × String)) : String :=
  "level=DEBUG msg=" ++ message ++
    String.join (attributes.map fun (k, v) => " " ++ k ++ "=" ++ pairValue v)

def line : Event → String
  | called path kind arguments depth =>
    pairs "call" [("function", path.text), ("kind", kind.text), ("args", toString arguments),
      ("depth", toString depth)]
  | returned path value => pairs "return" [("function", path.text), ("value", value)]
  | failed path message => pairs "fail" [("function", path.text), ("error", message)]

end Event

end Arbor
