import Arbor.Text.Quoted
import Arbor.Text.Utf8

/-!
What can be wrong with a YAML document.

A document is malformed, or it holds values that do not fit where they stand. Misfits are collected
over the whole document, in its order, and are reported together. A reader of a part may refuse it
for reasons of its own, which ends the reading at once.
-/

set_option autoImplicit false

namespace Arbor.Yaml

/-- A value that does not fit where it stands. -/
inductive Issue where
  | repeatedKey (line : Nat) (key : String) (first : Nat)
  /-- A value of the wrong kind; collections show no text. -/
  | misfit (line : Nat) (tag : String) (text : String) (target : String)
  | unknownField (line : Nat) (name : String) (target : String)
  | fieldTwice (line : Nat) (name : String) (target : String)
  deriving DecidableEq, Repr

namespace Issue

/-- The text of a scalar in a message: at most ten bytes, else the first seven of them. -/
def excerpt (s : String) : String :=
  let bytes := Text.bytes s
  if bytes.length > 10 then String.ofList (Text.decodeLossy (bytes.take 7)) ++ "..." else s

def text : Issue → String
  | repeatedKey line key first =>
    "line " ++ toString line ++ ": mapping key " ++ Text.quote key ++ " already defined at line " ++
      toString first
  | misfit line tag value target =>
    let shown :=
      if tag == "!!seq" || tag == "!!map" then value else " `" ++ excerpt value ++ "`"
    "line " ++ toString line ++ ": cannot unmarshal " ++ tag ++ shown ++ " into " ++ target
  | unknownField line name target =>
    "line " ++ toString line ++ ": field " ++ name ++ " not found in type " ++ target
  | fieldTwice line name target =>
    "line " ++ toString line ++ ": field " ++ name ++ " already set in type " ++ target

end Issue

/-- Why nothing was read; `ε` is what readers of parts refuse. -/
inductive Fault (ε : Type) where
  | malformed
  | issues (list : List Issue)
  | refused (reason : ε)

namespace Fault

variable {ε δ : Type}

def text (reason : ε → String) : Fault ε → String
  | malformed => "yaml: syntax error"
  | issues list =>
    "yaml: unmarshal errors:" ++ String.join (list.map fun i => "\n  " ++ i.text)
  | refused e => reason e

/-- The same fault where more can be refused. -/
def widen (f : ε → δ) : Fault ε → Fault δ
  | malformed => malformed
  | issues list => issues list
  | refused e => refused (f e)

end Fault

end Arbor.Yaml
