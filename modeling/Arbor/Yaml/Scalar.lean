import Arbor.Number.Decimal
import Arbor.Json.Read
import Arbor.Text.Base64
import Arbor.Text.Utf8
import Arbor.Yaml.Timestamp

/-!
What the text of a scalar stands for.

Without a tag the text decides: words for null and the truth values, integers in several bases,
floating-point numbers, dates. A tag of the standard set demands that kind; any other tag leaves the
text as it is.
-/

set_option autoImplicit false

namespace Arbor.Yaml

inductive Scalar where
  | null
  | bool (value : Bool)
  | integer (value : Int)
  | double (value : Double)
  | time
  | string (value : String)
  deriving DecidableEq, Repr

namespace Tag

/-- The tags of the standard set, in their short form. -/
def null : String := "!!null"
@[inherit_doc null] def bool : String := "!!bool"
@[inherit_doc null] def str : String := "!!str"
@[inherit_doc null] def int : String := "!!int"
@[inherit_doc null] def float : String := "!!float"
@[inherit_doc null] def time : String := "!!timestamp"
@[inherit_doc null] def binary : String := "!!binary"
@[inherit_doc null] def merge : String := "!!merge"
@[inherit_doc null] def seq : String := "!!seq"
@[inherit_doc null] def map : String := "!!map"

/-- What the short form `!!` of a tag stands for. -/
def standard : String := "tag:yaml.org,2002:"

def short (tag : String) : String :=
  if tag.startsWith standard then "!!" ++ String.ofList (tag.toList.drop standard.length) else tag

end Tag

def Scalar.tag : Scalar → String
  | null => Tag.null
  | bool _ => Tag.bool
  | integer _ => Tag.int
  | double _ => Tag.float
  | time => Tag.time
  | string _ => Tag.str

/-! ## Numbers -/

/-- The value of digits in a base, if they all are digits of it and there is one at least. -/
def digits? (base : Nat) (cs : List Char) : Option Nat :=
  if cs.isEmpty then none
  else cs.foldlM (fun n c => do
    let d ← Json.hexValue? c
    if d < base then some (n * base + d) else none) 0

/-- Digits whose base a leading zero or a letter after it selects; a zero in front of nothing else is
zero. -/
def prefixed? : List Char → Option Nat
  | '0' :: x :: rest =>
    if !rest.isEmpty && (x == 'b' || x == 'B') then digits? 2 rest
    else if !rest.isEmpty && (x == 'o' || x == 'O') then digits? 8 rest
    else if !rest.isEmpty && (x == 'x' || x == 'X') then digits? 16 rest
    else digits? 8 (x :: rest)
  | cs => digits? 10 cs

/-- A number with a sign in front of it, within 64 bits. -/
def signed? (read : List Char → Option Nat) (cs : List Char) : Option Int := do
  let (negative, body) := splitSign cs
  let n ← read body
  let i : Int := if negative then -(n : Int) else n
  if -9223372036854775808 ≤ i ∧ i < 9223372036854775808 then some i else none

/-- A number without a sign, within 64 bits. -/
def unsigned? (read : List Char → Option Nat) (cs : List Char) : Option Int := do
  let n ← read cs
  if n < 18446744073709551616 then some n else none

/-- An integer with its sign in front, in any base. -/
def integer? (cs : List Char) : Option Int :=
  signed? prefixed? cs <|> unsigned? prefixed? cs

/-- Binary and octal integers with the sign after the letter. -/
def lateSign? : List Char → Option Int
  | '0' :: 'b' :: rest => signed? (digits? 2) rest <|> unsigned? (digits? 2) rest
  | '-' :: '0' :: 'b' :: rest => signed? (digits? 2) ('-' :: rest)
  | '0' :: 'o' :: rest => signed? (digits? 8) rest <|> unsigned? (digits? 8) rest
  | '-' :: '0' :: 'o' :: rest => signed? (digits? 8) ('-' :: rest)
  | _ => none

/-- Whether every underscore stands between two digits. -/
def separated : Option Char → List Char → Bool
  | _, [] => true
  | before, '_' :: rest =>
    (match before, rest with
      | some b, a :: _ => b.isDigit && a.isDigit
      | _, _ => false) && separated (some '_') rest
  | _, c :: rest => separated (some c) rest

/-- A floating-point number that starts with a point; underscores may separate digits. -/
def pointed? (cs : List Char) : Option Double :=
  if separated none cs then (Decimal.parse? (cs.filter (· != '_'))).bind Decimal.toDouble? else none

/-! ## Resolution -/

def word? (s : String) : Option Scalar :=
  let infinite (negative : Bool) := Scalar.double (Double.ofPattern (Layout.double.infinite negative))
  match s with
  | "" | "~" | "null" | "Null" | "NULL" => some .null
  | "true" | "True" | "TRUE" => some (.bool true)
  | "false" | "False" | "FALSE" => some (.bool false)
  | ".nan" | ".NaN" | ".NAN" => some (.double (Double.ofPattern Layout.double.quietNaN))
  | ".inf" | ".Inf" | ".INF" | "+.inf" | "+.Inf" | "+.INF" => some (infinite false)
  | "-.inf" | "-.Inf" | "-.INF" => some (infinite true)
  | _ => none

/-- The number or date a text that starts with a sign or a digit stands for. -/
def numeric? (dates : Bool) (cs : List Char) : Option Scalar :=
  if dates && Timestamp.isTimestamp cs then some .time
  else
    let plain := cs.filter (· != '_')
    match integer? plain with
    | some n => some (.integer n)
    | none =>
      match (Decimal.parse? plain).bind Decimal.toDouble? with
      | some x => some (.double x)
      | none => (lateSign? plain).map .integer

/-- What a text stands for by itself; `dates` tells whether it may be a date. -/
def meaning (dates : Bool) (s : String) : Scalar :=
  match word? s with
  | some v => v
  | none =>
    let found :=
      match s.toList with
      | [] => none
      | x :: rest =>
        if x == '.' then (pointed? (x :: rest)).map Scalar.double
        else if x == '+' || x == '-' || x.isDigit then numeric? dates (x :: rest)
        else none
    found.getD (.string s)

/-- The tag of a plain scalar without a tag. -/
def plainTag (s : String) : String :=
  if s == "<<" then Tag.merge else (meaning true s).tag

def isDemanding (tag : String) : Bool :=
  [Tag.bool, Tag.int, Tag.float, Tag.null, Tag.time].contains tag

/-- The value of a scalar with a tag; there is none if the text is not of the kind the tag
demands. An integer will do for a floating-point number if it fits into 64 bits with a sign. Texts are
Unicode here, so binary data that is not UTF-8 is not kept as it is: each byte that does not belong
becomes a replacement character. -/
def resolve? (tag text : String) : Option Scalar :=
  if tag == Tag.binary then
    (Text.decodeBase64? text).map fun bytes => .string (String.ofList (Text.decodeLossy bytes))
  else if !isDemanding tag then some (.string text)
  else
    let v := meaning (tag == Tag.time) text
    if v.tag == tag then some v
    else if tag == Tag.float then
      match v with
      | .integer n => if n < 9223372036854775808 then some (.double (Double.ofInt n)) else none
      | _ => none
    else none

end Arbor.Yaml
