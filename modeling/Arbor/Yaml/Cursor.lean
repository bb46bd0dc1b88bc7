import Arbor.Text.Blank

/-!
A position in a YAML stream: what is left of it, and the line and column reached.
-/

set_option autoImplicit false

namespace Arbor.Yaml

def isBlank (c : Char) : Bool := c == ' ' || c == '\t'

def isBreak (c : Char) : Bool :=
  c == '\n' || c == '\r' || c.toNat == 0x85 || c.toNat == 0x2028 || c.toNat == 0x2029

def isWordChar (c : Char) : Bool := c.isAlphanum || c == '_' || c == '-'

/-- The end of a line or of the stream. -/
def endsLine : Option Char → Bool
  | none => true
  | some c => isBreak c

/-- A blank, the end of a line or the end of the stream. -/
def endsWord : Option Char → Bool
  | none => true
  | some c => isBlank c || isBreak c

structure Cursor where
  rest : List Char
  /-- The number of characters passed. -/
  index : Nat
  line : Nat
  column : Nat
  /-- The line ends passed since the last character that is no blank. -/
  breaks : Nat
  /-- The length of the whole stream, which bounds every walk through what is left. -/
  total : Nat

namespace Cursor

def start (cs : List Char) : Cursor := ⟨cs, 0, 0, 0, 0, cs.length⟩

def peek? (c : Cursor) : Option Char := c.rest.head?

def ahead? (c : Cursor) (n : Nat) : Option Char := c.rest[n]?

def sees (c : Cursor) (x : Char) : Bool := c.peek? == some x

def seesAny (c : Cursor) (p : Char → Bool) : Bool :=
  match c.rest with
  | x :: _ => p x
  | [] => false

/-- Passes one character within a line. -/
def next (c : Cursor) : Cursor :=
  match c.rest with
  | [] => c
  | x :: rest =>
    { c with
      rest := rest, index := c.index + 1, column := c.column + 1
      breaks := if isBlank x then c.breaks else 0 }

def skip : Nat → Cursor → Cursor
  | 0, c => c
  | n + 1, c => skip n c.next

def skipWhile (p : Char → Bool) (c : Cursor) : Cursor := skip (c.rest.takeWhile p).length c

def skipToBreak (c : Cursor) : Cursor := c.skipWhile fun x => !isBreak x

/-- Passes the end of a line, if there is one here; the result holds what it stands for in text. -/
def lineBreak (c : Cursor) : List Char × Cursor :=
  let after (rest : List Char) (width : Nat) : Cursor :=
    ⟨rest, c.index + width, c.line + 1, 0, c.breaks + 1, c.total⟩
  match c.rest with
  | '\r' :: '\n' :: rest => (['\n'], after rest 2)
  | x :: rest =>
    if x == '\r' || x == '\n' || x.toNat == 0x85 then (['\n'], after rest 1)
    else if isBreak x then ([x], after rest 1)
    else ([], c)
  | [] => ([], c)

/-- Whether a line with a document indicator starts here. -/
def atIndicator (c : Cursor) : Bool :=
  c.column == 0 &&
    (c.rest.take 3 == ['-', '-', '-'] || c.rest.take 3 == ['.', '.', '.']) &&
    endsWord (c.ahead? 3)

/-- Passes blanks and a comment after them, if no line has ended since the last token. -/
def skipLineComment (c : Cursor) : Cursor :=
  let blanks := (c.rest.takeWhile isBlank).length
  if c.breaks == 0 && blanks < 512 && c.ahead? blanks == some '#' then
    (skip blanks c).skipToBreak
  else c

/-- Passes blanks and line ends until so many characters were passed. -/
def skipTo (index : Nat) : Nat → Cursor → Cursor
  | 0, c => c
  | fuel + 1, c =>
    if c.index < index then
      if c.seesAny isBreak then skipTo index fuel c.lineBreak.2 else skipTo index fuel c.next
    else c

/-- Passes a comment and the comment lines that follow it, with any blanks and empty lines between
them. -/
def skipComments : Nat → Cursor → Cursor
  | 0, c => c
  | fuel + 1, c =>
    let c := c.skipToBreak
    match c.rest with
    | [] => c
    | x :: rest =>
      let gap := rest.takeWhile fun y => isBlank y || y == '\n' || y == '\r'
      let width := gap.length + 1
      if (x == '\n' || x == '\r') && width < 512 && c.ahead? width == some '#' then
        skipComments fuel (skipTo (c.index + width) (width + 1) c)
      else c

/-- Passes white space and comments up to the next token. In block context the start of a line may
be the start of a key, and tabs are no white space where a key may start. -/
def toToken (inFlow : Bool) : Nat → Bool → Cursor → Bool × Cursor
  | 0, keyAllowed, c => (keyAllowed, c)
  | fuel + 1, keyAllowed, c =>
    let c := if c.column == 0 && c.seesAny (·.toNat == 0xFEFF) then c.next else c
    let c := c.skipWhile fun x => x == ' ' || ((inFlow || !keyAllowed) && x == '\t')
    let c := if c.sees '#' then skipComments (c.total + 1) c else c
    if c.seesAny isBreak then toToken inFlow fuel (keyAllowed || !inFlow) c.lineBreak.2
    else (keyAllowed, c)

end Cursor

end Arbor.Yaml
