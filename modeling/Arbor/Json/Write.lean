import Arbor.Document
import Arbor.Text.Quoted

/-!
Writing documents as JSON, without white space and with the fields in the order of the document.
-/

set_option autoImplicit false

namespace Arbor.Json

def escape (c : Char) : List Char :=
  if c = '"' then ['\\', '"']
  else if c = '\\' then ['\\', '\\']
  else if c.toNat < 0x20 then '\\' :: 'u' :: Text.hexDigits 4 c.toNat
  else [c]

def quoted (s : String) : String :=
  String.ofList ('"' :: s.toList.flatMap escape ++ ['"'])

def numeral : Numeral → String
  | .literal s => s
  | .integer n => toString n
  | .double x => x.text

mutual

/-- The text of a document. What has no form in JSON is written as null. -/
def write : Document → String
  | .null => "null"
  | .bool true => "true"
  | .bool false => "false"
  | .string s => quoted s
  | .number n => numeral n
  | .list items => "[" ++ String.intercalate "," (writeItems items) ++ "]"
  | .object fields => "\x7b" ++ String.intercalate "," (writeFields fields) ++ "\x7d"
  | .other => "null"

def writeItems : List Document → List String
  | [] => []
  | d :: rest => write d :: writeItems rest

def writeFields : List (String × Document) → List String
  | [] => []
  | (k, d) :: rest => (quoted k ++ ":" ++ write d) :: writeFields rest

end

end Arbor.Json
