import Arbor.Yaml.Scalar
import Arbor.Text.Quoted

/-!
Texts as YAML scalars that read back as the same text.

A text stands plain if nothing in it has a meaning of its own, between single quotes if only its
characters stand in the way, and between double quotes if it would read as something other than a
text or holds characters that need escapes. A text of several lines is a literal block.
-/

set_option autoImplicit false

namespace Arbor.Yaml.Printer

/-- Characters that need no escape. -/
def isShown (c : Char) : Bool :=
  let n := c.toNat
  n == 0x0A || (0x20 ≤ n && n ≤ 0x7E) || (0xA0 ≤ n && n ≤ 0xD7FF) ||
    (0xE000 ≤ n && n ≤ 0xFFFD && n != 0xFEFF)

def isLineEnd (c : Char) : Bool :=
  [0x0A, 0x0D, 0x85, 0x2028, 0x2029].contains c.toNat

def isGap (c : Char) : Bool := c == ' ' || c == '\t'

/-! ## Texts with a meaning -/

/-- Words that older readers take for truth values. -/
def isOldTruth (s : String) : Bool :=
  ["y", "Y", "yes", "Yes", "YES", "on", "On", "ON", "n", "N", "no", "No", "NO", "off", "Off",
    "OFF"].contains s

/-- Digits and underscores that end the text. -/
def isSixtiesFraction (cs : List Char) : Bool := cs.all fun c => c.isDigit || c == '_'

/-- Groups of a colon and a number below sixty, then perhaps a fraction. -/
def isSixtiesTail : List Char → Bool → Bool
  | [], grouped => grouped
  | '.' :: rest, grouped => grouped && isSixtiesFraction rest
  | ':' :: a :: b :: rest, _ =>
    (a.isDigit && isSixtiesTail (b :: rest) true) ||
      ('0' ≤ a && a ≤ '5' && b.isDigit && isSixtiesTail rest true)
  | ':' :: a :: [], _ => a.isDigit
  | _ :: _, _ => false

/-- Whether older readers take the text for a number to the base of sixty. -/
def isSixties (s : String) : Bool :=
  let body :=
    match s.toList with
    | c :: rest => if c == '+' || c == '-' then rest else c :: rest
    | [] => []
  match body with
  | c :: rest => c.isDigit && isSixtiesTail (rest.dropWhile fun c => c.isDigit || c == '_') false
  | [] => false

/-- Whether a plain text would be read as a text. -/
def readsAsText (s : String) : Bool :=
  plainTag s == Tag.str && !isSixties s && !isOldTruth s

/-! ## Characters in the way -/

/-- Whether a plain text cannot start like this. -/
def badStart : List Char → Bool
  | '-' :: '-' :: '-' :: _ => true
  | '.' :: '.' :: '.' :: _ => true
  | '-' :: rest => (rest.head?.map isGap).getD true
  | '?' :: rest => (rest.head?.map isGap).getD true
  | ':' :: rest => (rest.head?.map isGap).getD true
  | c :: _ =>
    ['#', ',', '[', ']', '&', '*', '!', '|', '>', '"', '%', '@'].contains c ||
      [0x7B, 0x7D, 0x27, 0x60].contains c.toNat
  | [] => false

/-- Whether a colon before a gap, or a hash after one, stands in the text; `gap` tells whether a gap
or the end of a line precedes. -/
def hasMark : Bool → List Char → Bool
  | _, [] => false
  | gap, c :: rest =>
    (c == ':' && (rest.head?.map isGap).getD true) || (c == '#' && gap) ||
      hasMark (isGap c || isLineEnd c || c.toNat == 0) rest

/-- Whether the text holds a character followed by another one. -/
def hasPair (first second : Char → Bool) : List Char → Bool
  | a :: b :: rest => (first a && second b) || hasPair first second (b :: rest)
  | _ => false

def hasSpecial (cs : List Char) : Bool := cs.any fun c => !isShown c && c != '\t'

def hasSpaceAtEnd (cs : List Char) : Bool := hasPair (· == ' ') isLineEnd cs

def canBePlain (cs : List Char) : Bool :=
  let edge := fun (c : Option Char) => (c.map fun c => c == ' ' || isLineEnd c).getD false
  !edge cs.head? && !edge cs.getLast? && !cs.any (fun c => isLineEnd c || c == '\t') &&
    !hasSpecial cs && !badStart cs && !hasMark true cs

def canBeSingle (cs : List Char) : Bool :=
  !hasPair isLineEnd (· == ' ') cs && !hasSpaceAtEnd cs && !cs.contains '\t' && !hasSpecial cs

def canBeBlock (cs : List Char) : Bool :=
  cs.getLast? != some ' ' && !hasSpaceAtEnd cs && !hasSpecial cs

/-! ## Forms of a scalar -/

/-- An upper-case hexadecimal number of that many digits. -/
def hexadecimal (width n : Nat) : List Char := (Text.hexDigits width n).map Char.toUpper

/-- A character between double quotes. -/
def escape (c : Char) : List Char :=
  if isShown c && !isLineEnd c && c != '"' && c != '\\' then [c]
  else
    match c.toNat with
    | 0x00 => ['\\', '0']
    | 0x07 => ['\\', 'a']
    | 0x08 => ['\\', 'b']
    | 0x09 => ['\\', 't']
    | 0x0A => ['\\', 'n']
    | 0x0B => ['\\', 'v']
    | 0x0C => ['\\', 'f']
    | 0x0D => ['\\', 'r']
    | 0x1B => ['\\', 'e']
    | 0x22 => ['\\', '"']
    | 0x5C => ['\\', '\\']
    | 0x85 => ['\\', 'N']
    | 0x2028 => ['\\', 'L']
    | 0x2029 => ['\\', 'P']
    | n =>
      if n ≤ 0xFF then '\\' :: 'x' :: hexadecimal 2 n
      else if n ≤ 0xFFFF then '\\' :: 'u' :: hexadecimal 4 n
      else '\\' :: 'U' :: hexadecimal 8 n

def double (cs : List Char) : List Char := '"' :: cs.flatMap escape ++ ['"']

/-- The characters between single quotes; after the end of a line the next one is indented. -/
def singleBody (indent : Nat) : Bool → List Char → List Char
  | _, [] => []
  | broken, c :: rest =>
    if isLineEnd c then c :: singleBody indent true rest
    else
      (if broken then List.replicate indent ' ' else []) ++
        (if c.toNat == 0x27 then [c, c] else [c]) ++ singleBody indent false rest

def single (indent : Nat) (cs : List Char) : List Char :=
  let quote := Char.ofNat 0x27
  quote :: singleBody indent false cs ++ [quote]

/-- What stands after the bar of a literal block: the indentation if the text does not show it, and
what becomes of the end of its last line. -/
def blockHints (cs : List Char) : List Char :=
  let indentation :=
    match cs.head? with
    | some c => if c == ' ' || isLineEnd c then ['2'] else []
    | none => []
  let ending :=
    match cs.reverse with
    | [] => ['-']
    | [c] => if isLineEnd c then ['+'] else ['-']
    | last :: before :: _ =>
      if !isLineEnd last then ['-'] else if isLineEnd before then ['+'] else []
  indentation ++ ending

/-- The lines of a literal block. `broken` tells whether a line has ended, `fresh` whether a new one
has begun. -/
def blockBody (indent : Nat) : Bool → Bool → List Char → List Char
  | _, _, [] => []
  | broken, fresh, c :: rest =>
    if isLineEnd c then c :: blockBody indent true true rest
    else
      (if broken then (if fresh then [] else ['\n']) ++ List.replicate indent ' ' else []) ++
        c :: blockBody indent false false rest

def block (indent : Nat) (cs : List Char) : List Char :=
  '|' :: blockHints cs ++ blockBody indent true false cs

/-- A text as the value of a field, without the end of its last line; `indent` is the indentation of
what continues it. -/
def scalar (indent : Nat) (s : String) : String :=
  let cs := s.toList
  String.ofList <|
    if cs.contains '\n' then (if canBeBlock cs then block indent cs else double cs)
    else if !readsAsText s then double cs
    else if canBePlain cs then cs
    else if canBeSingle cs then single indent cs
    else double cs

/-- A field of a mapping with its line end. A block that ends a line needs no other end. -/
def field (indent : Nat) (name value : String) : String :=
  let written := scalar indent value
  let line := name ++ ": " ++ written
  if written.startsWith "|" && written.endsWith "\n" then line else line ++ "\n"

end Arbor.Yaml.Printer
