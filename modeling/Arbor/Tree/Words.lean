import Arbor.Tree.Decode

/-!
Integers of trees out of machine words.

`Decode.integer` reads integers of any size. What a document really delivers for a number is a
literal, a signed or unsigned word of 64 bits, or a double, and all of it goes through a signed word
of 64 bits before it becomes one of 32. Converting a double to such a word is up to the machine where
the double does not fit.
-/

set_option autoImplicit false

namespace Arbor

/-- A number as it is delivered. -/
inductive Raw where
  | literal (text : String)
  /-- A signed word of the machine's own size, which is 64 bits. -/
  | int (value : Int64)
  | int64 (value : Int64)
  | uint64 (value : UInt64)
  | float (value : Double)
  deriving DecidableEq, Repr

def Raw.numeral : Raw → Numeral
  | literal s => .literal s
  | int n => .integer n.toInt
  | int64 n => .integer n.toInt
  | uint64 n => .integer n.toNat
  | float x => .double x

/-- Whether `m * 2 ^ place` has no fraction. -/
def hasNoFraction (m : Nat) (place : Int) : Bool :=
  0 ≤ place || m % Nat.pow 2 (-place).toNat = 0

/-- What is left of `m * 2 ^ place` without its fraction. -/
def withoutFraction (m : Nat) (place : Int) : Nat :=
  if 0 ≤ place then m * Nat.pow 2 place.toNat else m / Nat.pow 2 (-place).toNat

/-- Whether a double equals what is left of it without its fraction; an infinity does. -/
def Double.isWhole (x : Double) : Bool :=
  match x.datum with
  | .nan => false
  | .infinite _ => true
  | .finite _ m place => hasNoFraction m place

namespace Decode

/-- A literal as a signed word of 64 bits, if it is written as an integer and fits. -/
def word? (s : String) : Option Int64 :=
  (integerLiteral? s).bind fun n => if inRange64 n then some (Int64.ofInt n) else none

def narrow (place : Place) (v : Int64) : Result Int32 :=
  if v < -2147483648 || 2147483647 < v then fault place (.overflow v.toInt) else .ok v.toInt32

/-- Reads a number that was delivered; `convert` takes doubles to words. -/
def word (convert : Double → Int64) (place : Place) : Raw → Result Int32
  | .literal s =>
    match word? s with
    | some v => narrow place v
    | none => fault place (.badInteger s)
  | .int n => narrow place n
  | .int64 n => narrow place n
  | .uint64 n =>
    if 2147483647 < n then fault place (.overflow n.toNat) else narrow place n.toInt64
  | .float x => if x.isWhole then narrow place (convert x) else fault place (.badInteger x.text)

end Decode

/-- Converts a double to a word; what does not fit becomes the least word. -/
def Double.toWord (x : Double) : Int64 :=
  match x.datum with
  | .finite negative m place =>
    let n : Int := if negative then -(withoutFraction m place : Int) else withoutFraction m place
    if Decode.inRange64 n then Int64.ofInt n else Int64.minValue
  | _ => Int64.minValue

end Arbor
