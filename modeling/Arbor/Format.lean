import Arbor.Json.Read
import Arbor.Text.Lower
import Arbor.Tree.Decode
import Arbor.Yaml.Value

/-!
The formats of tree documents: which one a file is in, and reading a tree from bytes.
-/

set_option autoImplicit false

namespace Arbor

/-- The notation of a document; any other number names none. -/
inductive Format where
  | json | yaml
  | unknown (code : Int)
  deriving DecidableEq, Repr

namespace Format

def ofCode (code : Int) : Format :=
  match code with
  | 0 => json
  | 1 => yaml
  | n => unknown n

def text : Format → String
  | json => "json"
  | yaml => "yaml"
  | unknown code => "format(" ++ toString code ++ ")"

end Format

inductive DecodeError where
  | json (fault : Json.Fault)
  | yaml (fault : Yaml.Fault Empty)
  | unsupportedFormat (format : Format)
  | unsupportedExtension (path : String)
  | violation (v : Violation)

def DecodeError.text : DecodeError → String
  | json .empty => "decode: json: EOF"
  | json .truncated => "decode: json: unexpected EOF"
  | json .malformed => "decode: json: syntax error"
  | yaml fault => "decode: yaml: " ++ fault.text nofun
  | unsupportedFormat f => "decode: unsupported format " ++ f.text
  | unsupportedExtension path =>
    "decode: " ++ path ++ ": unsupported extension (want .json, .yml or .yaml)"
  | violation v => v.text

namespace Format

/-- The end of a path from the last dot on, if that dot is in the last element. -/
def extension (path : String) : String :=
  let last := path.toList.reverse.takeWhile (· != '/')
  match last.span (· != '.') with
  | (after, '.' :: _) => String.ofList ('.' :: after.reverse)
  | _ => ""

def ofPath (path : String) : Except DecodeError Format :=
  match Text.lower (extension path) with
  | ".json" => .ok json
  | ".yml" => .ok yaml
  | ".yaml" => .ok yaml
  | _ => .error (.unsupportedExtension path)

/-- The document that bytes in a format hold. -/
def document (f : Format) (bytes : List UInt8) : Except DecodeError Document :=
  match f with
  | json => (Json.parse (Text.decodeLossy bytes)).mapError .json
  | yaml => (Yaml.parse bytes).mapError .yaml
  | unknown _ => .error (.unsupportedFormat f)

def readExpr (f : Format) (bytes : List UInt8) : Except DecodeError Expr := do
  let d ← f.document bytes
  d.toExpr.mapError .violation

def readModule (f : Format) (bytes : List UInt8) : Except DecodeError Module := do
  let d ← f.document bytes
  d.toModule.mapError .violation

end Format

end Arbor
