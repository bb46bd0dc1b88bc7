import Arbor.Command.Report
import Arbor.Format

/-!
The scripted loop: every line of the input is an expression that is evaluated by itself.

What a line prints does not depend on the lines before it, except that one that asks to quit ends the
loop. A line that is too long ends it with a failure.
-/

set_option autoImplicit false

namespace Arbor.Command

/-- The least number of bytes that is too much for a line. -/
def lineLimit : Nat := 4194304

/-- The bytes of a line, last one first, without a carriage return at its end. -/
def lineBytes : List UInt8 → List UInt8
  | 13 :: rest => rest.reverse
  | bytes => bytes.reverse

/-- Splits input into lines, up to the first one that is too long. `line` holds the bytes of the
current line, last one first, and `size` their number. -/
def splitLines : List UInt8 → List UInt8 → Nat → List (List UInt8) → List (List UInt8) × Bool
  | [], line, size, done =>
    ((if size = 0 then done else lineBytes line :: done).reverse, false)
  | 10 :: rest, line, _, done => splitLines rest [] 0 (lineBytes line :: done)
  | b :: rest, line, size, done =>
    if size + 1 ≥ lineLimit then (done.reverse, true)
    else splitLines rest (b :: line) (size + 1) done

/-- What a line of the loop asks for. -/
inductive Turn where
  | skip
  | quit
  | unknown
  | document (text : String)
  deriving DecidableEq, Repr

def Turn.ofLine (bytes : List UInt8) : Turn :=
  match Text.trimChars (Text.decodeLossy bytes) with
  | [] => .skip
  | ':' :: rest =>
    let word := String.ofList rest
    if word == "quit" || word == "q" then .quit else .unknown
  | cs => .document (String.ofList cs)

def evaluateDocument (s : Session Printed) (fuel : Nat) (f : Format) (bytes : List UInt8) :
    Option (Report × Session Printed) :=
  match f.readExpr bytes with
  | .error e => some (.complain e.text, s)
  | .ok e => do
    let (r, s) ← s.evaluate fuel e
    let (_, report, s) := reportOn r s
    return (report, s)

/-- The report on one line, or nothing if it ends the loop. -/
def takeTurn (s : Session Printed) (fuel : Nat) (line : List UInt8) :
    Option (Option (Report × Session Printed)) :=
  match Turn.ofLine line with
  | .skip => some (some (.empty, s))
  | .quit => some none
  | .unknown => some (some (.complain "unknown command. Type :quit to exit.", s))
  | .document text => (evaluateDocument s fuel .json (Text.bytes text)).map some

/-- The reports on the lines before the one that ends the loop, the latest first, and whether there
is such a line. -/
def takeTurns (fuel : Nat) :
    List (List UInt8) → Session Printed → List Report → Option (List Report × Bool)
  | [], _, done => some (done, false)
  | line :: rest, s, done =>
    match takeTurn s fuel line with
    | none => none
    | some none => some (done, true)
    | some (some (report, s)) => takeTurns fuel rest s (report :: done)

/-- All lines of reports that are given latest first. -/
def joinReports (reports : List Report) : Report :=
  let inOrder := reports.reverse
  ⟨inOrder.flatMap (·.out), inOrder.flatMap (·.err)⟩

def runLoop (s : Session Printed) (fuel : Nat) (input : List UInt8) : Option Outcome := do
  let (lines, tooLong) := splitLines input [] 0 []
  let (reports, ended) ← takeTurns fuel lines s []
  let report := joinReports reports
  return if tooLong && !ended then
      .failed (report ++ .complain "read error: bufio.Scanner: token too long")
    else .done report

end Arbor.Command
