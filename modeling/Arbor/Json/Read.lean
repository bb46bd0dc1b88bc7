import Arbor.Document
import Arbor.Text.Utf8

/-!
Reading JSON.

The first value of the text is the document; what follows it is not looked at. Numbers stay literals.
Of two fields with one name the later one counts. The reader goes through the text from left to
right and stops at the first character that cannot continue a value, so a text that only ends too
early is told apart from one that is malformed.
-/

set_option autoImplicit false

namespace Arbor.Json

inductive Fault where
  /-- There is nothing but white space. -/
  | empty
  /-- The text ends inside a value that was sound so far. -/
  | truncated
  | malformed
  deriving DecidableEq, Repr

/-- The result of reading; together with a part comes the text after it. -/
abbrev Reading (α : Type) := Except Fault α

/-- Objects and lists may be nested this deep. -/
def maxDepth : Nat := 10000

def isSpace (c : Char) : Bool := c == ' ' || c == '\t' || c == '\n' || c == '\r'

def skipSpace (cs : List Char) : List Char := cs.dropWhile isSpace

def hexValue? (c : Char) : Option Nat :=
  if c.isDigit then some (c.toNat - 48)
  else if 'a' ≤ c ∧ c ≤ 'f' then some (c.toNat - 87)
  else if 'A' ≤ c ∧ c ≤ 'F' then some (c.toNat - 55)
  else none

def hex : Nat → Nat → List Char → Reading (Nat × List Char)
  | 0, acc, cs => .ok (acc, cs)
  | _ + 1, _, [] => .error .truncated
  | count + 1, acc, c :: cs =>
    match hexValue? c with
    | some d => hex count (acc * 16 + d) cs
    | none => .error .malformed

/-- Four hexadecimal digits after a backslash and a `u`, if that is what comes next. -/
def unitEscape? : List Char → Option (Nat × List Char)
  | '\\' :: 'u' :: cs =>
    match hex 4 0 cs with
    | .ok r => some r
    | .error _ => none
  | _ => none

/-- The character of a 16-bit unit and what follows it. A leading surrogate takes the trailing one
after it along; a surrogate on its own becomes the replacement character. -/
def unitChar (unit : Nat) (cs : List Char) : Char × List Char :=
  if 0xD800 ≤ unit ∧ unit < 0xE000 then
    match unitEscape? cs with
    | some (low, rest) =>
      if unit < 0xDC00 ∧ 0xDC00 ≤ low ∧ low < 0xE000 then
        (Char.ofNat (0x10000 + (unit - 0xD800) * 0x400 + (low - 0xDC00)), rest)
      else (Text.replacement, cs)
    | none => (Text.replacement, cs)
  else (Char.ofNat unit, cs)

/-- The character a letter after a backslash stands for. -/
def simpleEscape? : Char → Option Char
  | '"' => some '"'
  | '\\' => some '\\'
  | '/' => some '/'
  | 'b' => some '\x08'
  | 'f' => some '\x0c'
  | 'n' => some '\n'
  | 'r' => some '\r'
  | 't' => some '\t'
  | _ => none

/-- Reads a string after its opening quote. -/
def string : Nat → List Char → List Char → Reading (String × List Char)
  | 0, _, _ => .error .malformed
  | _ + 1, _, [] => .error .truncated
  | fuel + 1, acc, '"' :: cs =>
    let _ := fuel
    .ok (String.ofList acc.reverse, cs)
  | _ + 1, _, ['\\'] => .error .truncated
  | fuel + 1, acc, '\\' :: 'u' :: cs =>
    match hex 4 0 cs with
    | .error e => .error e
    | .ok (unit, rest) =>
      let (c, rest) := unitChar unit rest
      string fuel (c :: acc) rest
  | fuel + 1, acc, '\\' :: c :: cs =>
    match simpleEscape? c with
    | some d => string fuel (d :: acc) cs
    | none => .error .malformed
  | fuel + 1, acc, c :: cs =>
    if c.toNat < 0x20 then .error .malformed else string fuel (c :: acc) cs

/-- Reads the rest of a word such as `true`. -/
def word (d : Document) : List Char → List Char → Reading (Document × List Char)
  | [], cs => .ok (d, cs)
  | _ :: _, [] => .error .truncated
  | w :: ws, c :: cs => if w = c then word d ws cs else .error .malformed

/-- At least one digit, then all that follow. -/
def digits : List Char → Reading (List Char × List Char)
  | [] => .error .truncated
  | c :: cs =>
    if c.isDigit then .ok (c :: cs.takeWhile Char.isDigit, cs.dropWhile Char.isDigit)
    else .error .malformed

/-- The digits before the point; a leading zero stands alone. -/
def whole : List Char → Reading (List Char × List Char)
  | '0' :: cs => .ok (['0'], cs)
  | cs => digits cs

def fraction : List Char → Reading (List Char × List Char)
  | '.' :: cs => do
    let (ds, rest) ← digits cs
    return ('.' :: ds, rest)
  | cs => .ok ([], cs)

def exponent : List Char → Reading (List Char × List Char)
  | [] => .ok ([], [])
  | e :: cs =>
    if e = 'e' ∨ e = 'E' then
      match cs with
      | s :: rest =>
        if s = '+' ∨ s = '-' then do
          let (ds, after) ← digits rest
          return (e :: s :: ds, after)
        else do
          let (ds, after) ← digits cs
          return (e :: ds, after)
      | [] => .error .truncated
    else .ok ([], e :: cs)

def number (cs : List Char) : Reading (Document × List Char) := do
  let (sign, body) :=
    match cs with
    | '-' :: rest => (['-'], rest)
    | _ => ([], cs)
  let (w, rest) ← whole body
  let (f, rest) ← fraction rest
  let (e, rest) ← exponent rest
  return (.number (.literal (String.ofList (sign ++ w ++ f ++ e))), rest)

mutual

/-- Reads a value. Every character takes two steps at most, so fuel of twice the length of the text
and one suffices. -/
def value : Nat → Nat → List Char → Reading (Document × List Char)
  | 0, _, _ => .error .truncated
  | fuel + 1, depth, cs =>
    match skipSpace cs with
    | [] => .error .truncated
    | '{' :: rest =>
      if depth < maxDepth then
        match skipSpace rest with
        | [] => .error .truncated
        | '}' :: rest => .ok (.object [], rest)
        | '"' :: rest => members fuel (depth + 1) [] rest
        | _ => .error .malformed
      else .error .malformed
    | '[' :: rest =>
      if depth < maxDepth then
        match skipSpace rest with
        | ']' :: rest => .ok (.list [], rest)
        | rest => elements fuel (depth + 1) [] rest
      else .error .malformed
    | '"' :: rest => do
      let (s, rest) ← string fuel [] rest
      return (.string s, rest)
    | 't' :: rest => word (.bool true) ['r', 'u', 'e'] rest
    | 'f' :: rest => word (.bool false) ['a', 'l', 's', 'e'] rest
    | 'n' :: rest => word .null ['u', 'l', 'l'] rest
    | c :: rest => if c = '-' ∨ c.isDigit then number (c :: rest) else .error .malformed

/-- Reads the members of an object after the opening quote of a name. -/
def members : Nat → Nat → Table Document → List Char → Reading (Document × List Char)
  | 0, _, _, _ => .error .truncated
  | fuel + 1, depth, fields, cs => do
    let (key, rest) ← string fuel [] cs
    match skipSpace rest with
    | [] => .error .truncated
    | ':' :: rest =>
      let (d, rest) ← value fuel depth rest
      let fields := Table.insert fields key d
      match skipSpace rest with
      | [] => .error .truncated
      | '}' :: rest => return (.object fields, rest)
      | ',' :: rest =>
        match skipSpace rest with
        | [] => .error .truncated
        | '"' :: rest => members fuel depth fields rest
        | _ => .error .malformed
      | _ => .error .malformed
    | _ => .error .malformed

/-- Reads the elements of a list, the ones read so far in reverse. -/
def elements : Nat → Nat → List Document → List Char → Reading (Document × List Char)
  | 0, _, _, _ => .error .truncated
  | fuel + 1, depth, acc, cs => do
    let (d, rest) ← value fuel depth cs
    match skipSpace rest with
    | [] => .error .truncated
    | ']' :: rest => return (.list (d :: acc).reverse, rest)
    | ',' :: rest => elements fuel depth (d :: acc) rest
    | _ => .error .malformed

end

/-- The document at the start of a text. -/
def parse (cs : List Char) : Except Fault Document :=
  if cs.all isSpace then .error .empty
  else do
    let (d, _) ← value (2 * cs.length + 2) 0 cs
    return d

end Arbor.Json
