import Arbor.Json.Read
import Arbor.Yaml.Cursor

/-!
The texts of scalars: plain, quoted and block scalars.

Within plain and quoted scalars a line end is folded: one becomes a space, and of several all but the
first stay. In literal blocks line ends stay, in folded blocks those between lines at the same
indentation are folded.
-/

set_option autoImplicit false

namespace Arbor.Yaml

/-- Blanks and line ends between two words of a scalar. -/
structure Gap where
  /-- Whether a line has ended. -/
  broken : Bool
  blanks : List Char
  first : List Char
  others : List Char

def Gap.none : Gap := ⟨false, [], [], []⟩

def Gap.text (g : Gap) : List Char :=
  if g.broken then
    if g.first.head? == some '\n' then (if g.others.isEmpty then [' '] else g.others)
    else g.first ++ g.others
  else g.blanks

/-- Passes blanks and line ends. A tab before column `limit` of a new line is not allowed. -/
def scanGap (limit : Int) : Nat → Gap → Cursor → Option (Gap × Cursor)
  | 0, g, c => some (g, c)
  | fuel + 1, g, c =>
    match c.rest with
    | [] => some (g, c)
    | x :: _ =>
      if isBlank x then
        if g.broken && x == '\t' && (c.column : Int) < limit then Option.none
        else if g.broken then scanGap limit fuel g c.next
        else scanGap limit fuel { g with blanks := g.blanks ++ [x] } c.next
      else if isBreak x then
        let (text, c) := c.lineBreak
        if g.broken then scanGap limit fuel { g with others := g.others ++ text } c
        else scanGap limit fuel { g with broken := true, blanks := [], first := text } c
      else some (g, c)

/-! ## Plain scalars -/

def endsPlainInFlow (c : Char) : Bool :=
  c == ',' || c == '?' || c == '[' || c == ']' || c.toNat == 0x7B || c.toNat == 0x7D

def plainWidth (inFlow : Bool) : List Char → Nat
  | [] => 0
  | x :: rest =>
    if isBlank x || isBreak x then 0
    else if x == ':' && endsWord rest.head? then 0
    else if inFlow && endsPlainInFlow x then 0
    else plainWidth inFlow rest + 1

/-- Puts characters on top of a text that is kept in reverse. -/
def push (acc cs : List Char) : List Char := cs.reverseAux acc

/-- Reads a plain scalar whose continuation lines are indented to `indent` at least. The text is
kept in reverse; the result tells whether it ended after the end of a line. -/
def scanPlain (inFlow : Bool) (indent : Int) : Nat → List Char → Gap → Cursor →
    Option (List Char × Bool × Cursor)
  | 0, _, _, _ => Option.none
  | fuel + 1, acc, g, c =>
    if c.atIndicator || c.sees '#' then some (acc, g.broken, c)
    else
      let width := plainWidth inFlow c.rest
      let acc := if width == 0 then acc else push (push acc g.text) (c.rest.take width)
      let g := if width == 0 then g else Gap.none
      let c := c.skip width
      if c.seesAny fun x => isBlank x || isBreak x then do
        let (g, c) ← scanGap indent (c.total + 1) g c
        if !inFlow && (c.column : Int) < indent then return (acc, g.broken, c)
        else scanPlain inFlow indent fuel acc g c
      else some (acc, g.broken, c)

/-! ## Quoted scalars -/

/-- The character a letter after a backslash stands for. -/
def escapeChar? (x : Char) : Option Char :=
  match x with
  | '0' => some (Char.ofNat 0)
  | 'a' => some (Char.ofNat 7)
  | 'b' => some (Char.ofNat 8)
  | 't' => some '\t'
  | '\t' => some '\t'
  | 'n' => some '\n'
  | 'v' => some (Char.ofNat 11)
  | 'f' => some (Char.ofNat 12)
  | 'r' => some '\r'
  | 'e' => some (Char.ofNat 27)
  | ' ' => some ' '
  | '"' => some '"'
  | '\\' => some '\\'
  | 'N' => some (Char.ofNat 0x85)
  | '_' => some (Char.ofNat 0xA0)
  | 'L' => some (Char.ofNat 0x2028)
  | 'P' => some (Char.ofNat 0x2029)
  | _ => if x.toNat == 39 then some x else Option.none

/-- The number of hexadecimal digits after a letter that announces a code point. -/
def escapeWidth? (x : Char) : Option Nat :=
  match x with
  | 'x' => some 2
  | 'u' => some 4
  | 'U' => some 8
  | _ => Option.none

/-- The character whose code point is given by hexadecimal digits. -/
def codePoint? (ds : List Char) : Option Char := do
  let n ← ds.foldlM (fun acc d => do return acc * 16 + (← Json.hexValue? d)) 0
  if (0xD800 ≤ n ∧ n ≤ 0xDFFF) ∨ 0x10FFFF < n then Option.none else some (Char.ofNat n)

/-- Reads a word of a quoted scalar up to a blank, a line end or the closing quote. The result tells
whether it ended with a line end that a backslash removes. -/
def scanQuotedWord (single : Bool) : Nat → List Char → Cursor → Option (List Char × Bool × Cursor)
  | 0, _, _ => Option.none
  | fuel + 1, acc, c =>
    match c.rest with
    | [] => some (acc, false, c)
    | x :: rest =>
      if isBlank x || isBreak x then some (acc, false, c)
      else if single then
        if x.toNat == 39 then
          if rest.head? == some x then scanQuotedWord single fuel (x :: acc) (c.skip 2)
          else some (acc, false, c)
        else scanQuotedWord single fuel (x :: acc) c.next
      else if x == '"' then some (acc, false, c)
      else if x == '\\' then
        match rest with
        | [] => Option.none
        | y :: digits =>
          if isBreak y then some (acc, true, c.next.lineBreak.2)
          else
            match escapeChar? y, escapeWidth? y with
            | some z, _ => scanQuotedWord single fuel (z :: acc) (c.skip 2)
            | Option.none, some width =>
              if (digits.take width).length < width then Option.none
              else
                match codePoint? (digits.take width) with
                | some z => scanQuotedWord single fuel (z :: acc) (c.skip (2 + width))
                | Option.none => Option.none
            | Option.none, Option.none => Option.none
      else scanQuotedWord single fuel (x :: acc) c.next

/-- Reads a quoted scalar after its opening quote, its closing quote included. The text is kept in
reverse. -/
def scanQuoted (single : Bool) : Nat → List Char → Cursor → Option (List Char × Cursor)
  | 0, _, _ => Option.none
  | fuel + 1, acc, c =>
    if c.atIndicator || c.rest.isEmpty then Option.none
    else do
      let (acc, escaped, c) ← scanQuotedWord single (c.total + 1) acc c
      if c.seesAny (fun x => if single then x.toNat == 39 else x == '"') then return (acc, c.next)
      else
        let (g, c) ← scanGap 0 (c.total + 1) { Gap.none with broken := escaped } c
        scanQuoted single fuel (push acc g.text) c

/-! ## Block scalars -/

/-- What becomes of the line ends at the end of a block: none, the first or all stay. -/
inductive Chomping where
  | strip | clip | keep

/-- The indicators after the bar or angle: chomping and indentation in either order. -/
def blockHeader (c : Cursor) : Option (Chomping × Nat × Cursor) :=
  let chomping? (c : Cursor) : Option Chomping :=
    if c.sees '+' then some .keep else if c.sees '-' then some .strip else Option.none
  let digit? (c : Cursor) : Option Nat :=
    match c.rest with
    | x :: _ => if x.isDigit then some (x.toNat - 48) else Option.none
    | [] => Option.none
  match chomping? c with
  | some chomping =>
    match digit? c.next with
    | some 0 => Option.none
    | some n => some (chomping, n, c.skip 2)
    | Option.none => some (chomping, 0, c.next)
  | Option.none =>
    match digit? c with
    | some 0 => Option.none
    | some n =>
      match chomping? c.next with
      | some chomping => some (chomping, n, c.skip 2)
      | Option.none => some (.clip, n, c.next)
    | Option.none => some (.clip, 0, c)

/-- Passes empty lines and the indentation of the next line; as long as the indentation is not known
it counts as 0, and the greatest one passed is remembered. -/
def blockBreaks (indent : Nat) : Nat → Nat → List Char → Cursor → Option (List Char × Nat × Cursor)
  | 0, _, _, _ => Option.none
  | fuel + 1, deepest, acc, c =>
    let inside (c : Cursor) : Bool := indent == 0 || c.column < indent
    let spaces := (c.rest.takeWhile (· == ' ')).length
    let c := c.skip (if indent == 0 then spaces else min spaces (indent - c.column))
    let deepest := max deepest c.column
    if inside c && c.sees '\t' then Option.none
    else if c.seesAny isBreak then
      let (text, c) := c.lineBreak
      blockBreaks indent fuel deepest (acc ++ text) c
    else some (acc, deepest, c)

/-- Reads the lines of a block at an indentation. The text is kept in reverse. -/
def blockLines (literal : Bool) (indent : Nat) : Nat → List Char → Bool → List Char → List Char →
    Cursor → Option (List Char × List Char × List Char × Cursor)
  | 0, _, _, _, _, _ => Option.none
  | fuel + 1, acc, blankBefore, first, others, c =>
    if c.column == indent && !c.rest.isEmpty then
      let blank := c.seesAny isBlank
      let folded := !literal && !blankBefore && !blank && first.head? == some '\n'
      let joint := if folded then (if others.isEmpty then [' '] else []) else first
      let line := c.rest.takeWhile fun x => !isBreak x
      let acc := push (push (push acc joint) others) line
      let (first, c) := c.skipToBreak.lineBreak
      match blockBreaks indent (c.total + 1) 0 [] c with
      | some (others, _, c) => blockLines literal indent fuel acc blank first others c
      | Option.none => Option.none
    else some (acc, first, others, c)

/-- Reads a block scalar after its bar or angle, inside a block at an indentation. -/
def scanBlock (literal : Bool) (outer : Int) (c : Cursor) : Option (List Char × Cursor) := do
  let (chomping, increment, c) ← blockHeader c
  let c := c.skipWhile isBlank
  let c := if c.sees '#' then c.skipToBreak else c
  if !endsLine c.peek? then Option.none
  else
    let c := c.lineBreak.2
    let given : Nat := if increment == 0 then 0 else (max outer 0).toNat + increment
    let (others, deepest, c) ← blockBreaks given (c.total + 1) 0 [] c
    let indent := if given == 0 then max (max deepest (outer + 1).toNat) 1 else given
    let (acc, first, others, c) ← blockLines literal indent (c.total + 1) [] false [] others c
    let tail :=
      match chomping with
      | .strip => []
      | .clip => first
      | .keep => first ++ others
    return (acc.reverse ++ tail, c)

end Arbor.Yaml
