import Arbor.Yaml.Text

/-!
The tokens of a YAML stream.

Indentation turns into explicit tokens that open and close block collections. A simple key is only
known as a key when the colon after it is found, so its key token, and the token that opens the
mapping, are put in front of it afterwards. `tokens` gives all tokens that can be told before the
first error, if there is one.
-/

set_option autoImplicit false

namespace Arbor.Yaml

inductive TokenKind where
  | streamStart | streamEnd
  | version (major minor : Nat)
  | tagHandle (handle expansion : String)
  | documentStart | documentEnd
  | blockSequenceStart | blockMappingStart | blockEnd
  | flowSequenceStart | flowSequenceEnd | flowMappingStart | flowMappingEnd
  | blockEntry | flowEntry | key | value
  | reference (name : String)
  | anchor (name : String)
  | tag (handle suffix : String)
  | scalar (text : String) (plain : Bool)
  deriving DecidableEq, Repr

/-- A token and the line it starts in, counted from zero. -/
structure Token where
  kind : TokenKind
  line : Nat
  deriving Repr

/-- A place where a simple key may have started. -/
structure KeyPlace where
  possible : Bool
  required : Bool
  /-- The position of its first token among all tokens. -/
  number : Nat
  index : Nat
  line : Nat
  column : Nat

structure Scanner where
  cursor : Cursor
  flow : Nat
  indent : Int
  indents : List Int
  keyAllowed : Bool
  /-- One place for each open bracket and one for the block, the innermost first. -/
  keys : List KeyPlace
  /-- The tokens read, the latest first. -/
  latest : List Token
  count : Nat
  ended : Bool

namespace Scanner

/-- Brackets and blocks may be nested this deep. -/
def maxDepth : Nat := 10000

def noKey (number : Nat) (c : Cursor) : KeyPlace := ⟨false, false, number, c.index, c.line, c.column⟩

def start (cs : List Char) : Scanner :=
  let c := Cursor.start cs
  { cursor := c, flow := 0, indent := -1, indents := [], keyAllowed := true
    keys := [noKey 0 c], latest := [⟨.streamStart, 0⟩], count := 1, ended := false }

def add (s : Scanner) (kind : TokenKind) (line : Nat) : Scanner :=
  { s with latest := ⟨kind, line⟩ :: s.latest, count := s.count + 1 }

def insert (s : Scanner) (position : Nat) (kind : TokenKind) (line : Nat) : Scanner :=
  { s with
    latest := s.latest.insertIdx (s.count - position) ⟨kind, line⟩, count := s.count + 1 }

def tokens (s : Scanner) : List Token := s.latest.reverse

/-- Closes the blocks that are indented deeper than a column. -/
def unroll (column : Int) (line : Nat) : Nat → Scanner → Scanner
  | 0, s => s
  | fuel + 1, s =>
    if s.flow == 0 && column < s.indent then
      match s.indents with
      | [] => s
      | i :: rest =>
        unroll column line fuel { s.add .blockEnd line with indent := i, indents := rest }
    else s

def unrollTo (s : Scanner) (column : Int) (line : Nat) : Scanner :=
  unroll column line (s.indents.length + 1) s

/-- Opens a block at a column if it is indented deeper than the current one; its token goes to the
given position among all tokens, or to the end. -/
def roll (s : Scanner) (column : Nat) (position : Option Nat) (kind : TokenKind) (line : Nat) :
    Option Scanner :=
  if s.flow == 0 && s.indent < (column : Int) then
    if maxDepth ≤ s.indents.length then none
    else
      let opened := s.insert (position.getD s.count) kind line
      some { opened with indents := s.indent :: s.indents, indent := column }
  else some s

/-- Gives up the possible key at the current level; a required one cannot be given up. -/
def dropKey (s : Scanner) : Option Scanner :=
  match s.keys with
  | [] => some s
  | k :: rest =>
    if k.possible && k.required then none
    else some { s with keys := { k with possible := false } :: rest }

/-- Remembers that a key may start here. -/
def saveKey (s : Scanner) : Option Scanner :=
  if s.keyAllowed then do
    let c := s.cursor
    let required := s.flow == 0 && s.indent == (c.column : Int)
    let s ← s.dropKey
    let k : KeyPlace := ⟨true, required, s.count, c.index, c.line, c.column⟩
    return { s with keys := k :: s.keys.tail }
  else some s

/-- Whether a key may still be completed at the cursor: on its line and within 1024 characters. -/
def fresh (s : Scanner) (k : KeyPlace) : Bool :=
  k.line == s.cursor.line && s.cursor.index ≤ k.index + 1024

/-- Adds a token made of the next characters. -/
def take (s : Scanner) (width : Nat) (kind : TokenKind) : Scanner :=
  { s.add kind s.cursor.line with cursor := s.cursor.skip width }

/-! ## Indicators -/

def fetchEnd (s : Scanner) : Option Scanner := do
  let c := s.cursor
  let c := if c.column == 0 then c else { c with column := 0, line := c.line + 1 }
  let s := ({ s with cursor := c }).unrollTo (-1) c.line
  let s ← s.dropKey
  return { s.add .streamEnd c.line with keyAllowed := false, ended := true }

def fetchIndicator (s : Scanner) (kind : TokenKind) : Option Scanner := do
  let s ← (s.unrollTo (-1) s.cursor.line).dropKey
  return { s.take 3 kind with keyAllowed := false }

def fetchOpen (s : Scanner) (kind : TokenKind) : Option Scanner := do
  let s ← s.saveKey
  if maxDepth ≤ s.flow then none
  else
    let inner := noKey s.count s.cursor
    return { s.take 1 kind with flow := s.flow + 1, keys := inner :: s.keys, keyAllowed := true }

def fetchClose (s : Scanner) (kind : TokenKind) : Option Scanner := do
  let s ← s.dropKey
  let s := if s.flow == 0 then s else { s with flow := s.flow - 1, keys := s.keys.tail }
  return { s.take 1 kind with keyAllowed := false }

def fetchComma (s : Scanner) : Option Scanner := do
  let s ← s.dropKey
  return { s.take 1 .flowEntry with keyAllowed := true }

def fetchEntry (s : Scanner) : Option Scanner := do
  let c := s.cursor
  let s ←
    if s.flow == 0 then
      if s.keyAllowed then s.roll c.column none .blockSequenceStart c.line else none
    else some s
  let s ← s.dropKey
  return { s.take 1 .blockEntry with keyAllowed := true }

def fetchKey (s : Scanner) : Option Scanner := do
  let c := s.cursor
  let s ←
    if s.flow == 0 then
      if s.keyAllowed then s.roll c.column none .blockMappingStart c.line else none
    else some s
  let s ← s.dropKey
  return { s.take 1 .key with keyAllowed := s.flow == 0 }

/-- A colon. After a simple key it puts the key token in front of the key. -/
def fetchValue (s : Scanner) : Option Scanner := do
  let c := s.cursor
  match s.keys with
  | [] => none
  | k :: rest =>
    if k.possible && !s.fresh k && k.required then none
    else if k.possible && s.fresh k then
      let s ← (s.insert k.number .key k.line).roll k.column (some k.number) .blockMappingStart k.line
      let s := { s with keys := { k with possible := false } :: rest, keyAllowed := false }
      return s.take 1 .value
    else
      let s := { s with keys := { k with possible := false } :: rest }
      let s ←
        if s.flow == 0 then
          if s.keyAllowed then s.roll c.column none .blockMappingStart c.line else none
        else some s
      return { s.take 1 .value with keyAllowed := s.flow == 0 }

/-! ## Names and tags -/

/-- The characters that may follow an anchor or alias directly. -/
def endsName (x : Option Char) : Bool :=
  endsWord x ||
    match x with
    | some c =>
      c == '?' || c == ':' || c == ',' || c == ']' || c.toNat == 0x7D || c == '%' || c == '@' ||
        c.toNat == 0x60
    | none => false

def fetchName (s : Scanner) (kind : String → TokenKind) : Option Scanner := do
  let s ← s.saveKey
  let name := s.cursor.rest.tail.takeWhile isWordChar
  let width := name.length + 1
  if name.isEmpty || !endsName (s.cursor.ahead? width) then none
  else return { s.take width (kind (String.ofList name)) with keyAllowed := false }

/-- The characters of tags. -/
def isTagChar (c : Char) : Bool :=
  isWordChar c || c.toNat == 39 ||
    [';', '/', '?', ':', '@', '&', '=', '+', '$', ',', '.', '!', '~', '*', '(', ')', '[', ']',
      '%'].contains c

/-- The bytes that percent signs and pairs of hexadecimal digits stand for. -/
def percentBytes : Nat → List Char → Option (List UInt8 × List Char)
  | 0, cs => some ([], cs)
  | count + 1, '%' :: a :: b :: cs => do
    let byte := (← Json.hexValue? a) * 16 + (← Json.hexValue? b)
    let (bytes, rest) ← percentBytes count cs
    return (byte.toUInt8 :: bytes, rest)
  | _ + 1, _ => none

/-- How many bytes a character takes that starts with this one. -/
def leadWidth (b : Nat) : Nat :=
  if b < 0x80 then 1 else if b < 0xC0 then 0 else if b < 0xE0 then 2 else if b < 0xF0 then 3
  else if b < 0xF8 then 4 else 0

/-- Decodes the escapes in a tag. -/
def unescapeTag : Nat → List Char → Option (List Char)
  | 0, _ => none
  | _ + 1, [] => some []
  | fuel + 1, '%' :: a :: b :: cs => do
    let lead := (← Json.hexValue? a) * 16 + (← Json.hexValue? b)
    let width := leadWidth lead
    if width == 0 then none
    else
      let (bytes, rest) ← percentBytes (width - 1) cs
      let c ← Text.decode? (lead.toUInt8 :: bytes)
      return c ++ (← unescapeTag fuel rest)
  | _ + 1, '%' :: _ => none
  | fuel + 1, c :: cs => do return c :: (← unescapeTag fuel cs)

/-- The characters of a tag in front, decoded, and their number. -/
def tagText (cs : List Char) : Option (List Char × Nat) := do
  let raw := cs.takeWhile isTagChar
  let text ← unescapeTag (raw.length + 1) raw
  return (text, raw.length)

/-- The length of a handle in front: an exclamation mark, a word, and a second mark if there is one. -/
def handleWidth (cs : List Char) : Nat :=
  let word := (cs.tail.takeWhile isWordChar).length
  if cs[word + 1]? == some '!' then word + 2 else word + 1

/-- The handle and suffix of a tag in front, and its length. -/
def tagParts (cs : List Char) : Option (List Char × List Char × Nat) :=
  if cs[1]? == some '<' then do
    let (text, width) ← tagText (cs.drop 2)
    if width == 0 || cs[width + 2]? != some '>' then none
    else return ([], text, width + 3)
  else
    let width := handleWidth cs
    let handle := cs.take width
    if 1 < width && handle.getLast? == some '!' then do
      let (suffix, more) ← tagText (cs.drop width)
      if more == 0 then none else return (handle, suffix, width + more)
    else do
      let (more, extra) ← tagText (cs.drop width)
      let suffix := handle.tail ++ more
      if suffix.isEmpty then return ([], ['!'], width + extra)
      else return (['!'], suffix, width + extra)

def fetchTag (s : Scanner) : Option Scanner := do
  let s ← s.saveKey
  let (handle, suffix, width) ← tagParts s.cursor.rest
  if endsWord (s.cursor.ahead? width) then
    return { s.take width (.tag (String.ofList handle) (String.ofList suffix)) with
      keyAllowed := false }
  else none

/-! ## Directives -/

def directiveNumber (c : Cursor) : Option (Nat × Cursor) :=
  let ds := c.rest.takeWhile Char.isDigit
  if ds.isEmpty || 2 < ds.length then none
  else some (ds.foldl (fun n d => n * 10 + (d.toNat - 48)) 0, c.skip ds.length)

def versionDirective (c : Cursor) : Option (TokenKind × Cursor) := do
  let (major, c) ← directiveNumber (c.skipWhile isBlank)
  if c.sees '.' then
    let (minor, c) ← directiveNumber c.next
    return (.version major minor, c)
  else none

def tagDirective (c : Cursor) : Option (TokenKind × Cursor) := do
  let c := c.skipWhile isBlank
  if !c.sees '!' then none
  else
    let width := handleWidth c.rest
    let handle := c.rest.take width
    if handle.length != 1 && handle.getLast? != some '!' then none
    else
      let c := c.skip width
      if !c.seesAny isBlank then none
      else
        let c := c.skipWhile isBlank
        let (expansion, more) ← tagText c.rest
        if more == 0 || !endsWord (c.ahead? more) then none
        else
          return (.tagHandle (String.ofList handle) (String.ofList expansion), c.skip more)

def fetchDirective (s : Scanner) : Option Scanner := do
  let line := s.cursor.line
  let s ← (s.unrollTo (-1) line).dropKey
  let c := s.cursor.next
  let name := c.rest.takeWhile isWordChar
  let after := c.skip name.length
  if name.isEmpty || !endsWord after.peek? then none
  else
    let (kind, c) ←
      if name == ['Y', 'A', 'M', 'L'] then versionDirective after
      else if name == ['T', 'A', 'G'] then tagDirective after
      else none
    let c := c.skipWhile isBlank
    let c := if c.sees '#' then c.skipToBreak else c
    if endsLine c.peek? then
      return { s.add kind line with cursor := c.lineBreak.2, keyAllowed := false }
    else none

/-! ## Scalars -/

def fetchBlock (s : Scanner) (literal : Bool) : Option Scanner := do
  let s ← s.dropKey
  let (text, c) ← scanBlock literal s.indent s.cursor.next
  return { s.add (.scalar (String.ofList text) false) s.cursor.line with
    cursor := c, keyAllowed := true }

def fetchQuoted (s : Scanner) (single : Bool) : Option Scanner := do
  let s ← s.saveKey
  let (acc, c) ← scanQuoted single (s.cursor.total + 1) [] s.cursor.next
  return { s.add (.scalar (String.ofList acc.reverse) false) s.cursor.line with
    cursor := c, keyAllowed := false }

def fetchPlain (s : Scanner) : Option Scanner := do
  let s ← s.saveKey
  let (acc, broken, c) ←
    scanPlain (s.flow != 0) (s.indent + 1) (s.cursor.total + 1) [] Gap.none s.cursor
  return { s.add (.scalar (String.ofList acc.reverse) true) s.cursor.line with
    cursor := c, keyAllowed := broken }

/-- The characters that start no plain scalar. -/
def isIndicator (c : Char) : Bool :=
  ['-', '?', ':', ',', '[', ']', '#', '&', '*', '!', '|', '>', '"', '%', '@'].contains c ||
    c.toNat == 39 || c.toNat == 0x60 || c.toNat == 0x7B || c.toNat == 0x7D

/-! ## The next token -/

/-- Reads a token that starts with a character in the middle of a document. -/
def fetchContent (s : Scanner) (x : Char) : Option Scanner :=
  let inFlow := s.flow != 0
  let after := endsWord (s.cursor.ahead? 1)
  if x == '[' then s.fetchOpen .flowSequenceStart
  else if x.toNat == 0x7B then s.fetchOpen .flowMappingStart
  else if x == ']' then s.fetchClose .flowSequenceEnd
  else if x.toNat == 0x7D then s.fetchClose .flowMappingEnd
  else if x == ',' then s.fetchComma
  else if x == '-' && after then s.fetchEntry
  else if x == '?' && (inFlow || after) then s.fetchKey
  else if x == ':' && (inFlow || after) then s.fetchValue
  else if x == '*' then s.fetchName .reference
  else if x == '&' then s.fetchName .anchor
  else if x == '!' then s.fetchTag
  else if x == '|' && !inFlow then s.fetchBlock true
  else if x == '>' && !inFlow then s.fetchBlock false
  else if x.toNat == 39 then s.fetchQuoted true
  else if x == '"' then s.fetchQuoted false
  else if !(isBlank x || isBreak x || isIndicator x) || x == '-' ||
      (!inFlow && (x == '?' || x == ':')) then s.fetchPlain
  else none

/-- Whether the last token is a hyphen; a comment after it belongs to what follows. -/
def afterEntry (s : Scanner) : Bool :=
  match s.latest.head? with
  | some t => t.kind == .blockEntry
  | none => false

def fetch (s : Scanner) : Option Scanner :=
  let line := s.cursor.line
  let (keyAllowed, c) :=
    Cursor.toToken (s.flow != 0) (s.cursor.total + 1) s.keyAllowed s.cursor
  let s := ({ s with cursor := c, keyAllowed := keyAllowed }).unrollTo c.column line
  match c.rest with
  | [] => s.fetchEnd
  | x :: _ =>
    if c.column == 0 && x == '%' then s.fetchDirective
    else if c.atIndicator then
      s.fetchIndicator (if x == '-' then .documentStart else .documentEnd)
    else do
      let s ← s.fetchContent x
      if s.afterEntry then return s
      else return { s with cursor := s.cursor.skipLineComment }

/-- How many tokens can be told for sure when the next one is in error: two more have to be known
after each, and none that may yet turn out to be a key, or that had to, can be told. -/
def settled (s : Scanner) : Nat :=
  s.keys.foldl
    (fun n k => if k.possible && (k.required || s.fresh k) then min n k.number else n)
    (s.count - 2)

/-- Reads tokens to the end of the stream or to the first error. -/
def scan : Nat → Scanner → List Token
  | 0, s => s.tokens
  | fuel + 1, s =>
    if s.ended then s.tokens
    else
      match s.fetch with
      | some s => scan fuel s
      | none => s.tokens.take s.settled

end Scanner

/-- The tokens of a stream that come before its first error, or all of them. -/
def tokens (cs : List Char) : List Token := Scanner.scan (2 * cs.length + 4) (Scanner.start cs)

end Arbor.Yaml
