import Arbor.Number.Binary

/-!
Decimal numbers and the text of floating-point numbers.

`Decimal.pattern` rounds a decimal to a layout. `shortest` goes the other way: of all decimals that
round to a given finite number it takes the ones with the fewest digits, and of those the nearest.
`Single.text` and `Double.text` write the digits positionally while the exponent is at least -4 and
below 6, and with an exponent of at least two digits otherwise.
-/

set_option autoImplicit false

namespace Arbor

/-- The number `digits * 10 ^ exponent`, with a sign. -/
structure Decimal where
  negative : Bool
  digits : Nat
  exponent : Int
  deriving DecidableEq, Repr

namespace Decimal

/-- Numbers with an exponent beyond this bound are infinite or zero in every layout. -/
def reach : Int := 400

def width (n : Nat) : Nat := (Nat.toDigits 10 n).length

/-- The nearest pattern of a layout. -/
def pattern (d : Decimal) (L : Layout) : Nat :=
  let top := d.exponent + width d.digits
  if d.digits = 0 ∨ top < -reach then L.round d.negative 0 1
  else if reach < top then L.infinite d.negative
  else if 0 ≤ d.exponent then L.round d.negative (d.digits * Nat.pow 10 d.exponent.toNat) 1
  else L.round d.negative d.digits (Nat.pow 10 (-d.exponent).toNat)

end Decimal

namespace Layout

/-- Numerator and denominator of `num / den * 10 ^ k`. -/
def scaleTen (num den : Nat) (k : Int) : Nat × Nat :=
  if 0 ≤ k then (num * Nat.pow 10 k.toNat, den) else (num, den * Nat.pow 10 (-k).toNat)

/-- The exponent of the greatest power of ten that is at most `num / den`, for positive ones. -/
def tensOf (num den : Nat) : Int :=
  let guess : Int := (Decimal.width num : Int) - Decimal.width den
  let (n, d) := scaleTen num den (-guess)
  if d ≤ n then guess else guess - 1

/-- The interval of ratios that round to one number, over a common denominator. -/
structure Basin where
  low : Nat
  value : Nat
  high : Nat
  den : Nat
  closed : Bool

/-- The ratios that round to `significand * 2 ^ place`: half a unit either way, a quarter below a
power of two, and the ends themselves if the significand is even. -/
def basin (L : Layout) (significand : Nat) (place : Int) : Basin :=
  let narrow := significand = Nat.pow 2 L.fraction ∧ L.leastPlace < place
  let (unit, den) := scale 1 1 (2 - place)
  { low := unit * (4 * significand - (if narrow then 1 else 2))
    value := unit * (4 * significand)
    high := unit * (4 * significand + 2)
    den := den
    closed := significand % 2 = 0 }

def Basin.holds (b : Basin) (n : Nat) (k : Int) : Bool :=
  let (p, q) := scaleTen n 1 k
  let x := p * b.den
  let low := b.low * q
  let high := b.high * q
  if b.closed then low ≤ x && x ≤ high else low < x && x < high

/-- Of the two neighbours of the value on the grid of multiples of `10 ^ k` the one in the basin;
of two the nearer, of equally near ones the even. -/
def Basin.onGrid? (b : Basin) (k : Int) : Option Nat :=
  let (n, d) := scaleTen b.value b.den (-k)
  let down := n / d
  let up := down + 1
  match b.holds down k && down != 0, b.holds up k with
  | false, false => none
  | true, false => some down
  | false, true => some up
  | true, true => some (nearest n d)

/-- Tries one digit more at each step. -/
def Basin.search (b : Basin) (top : Int) : Nat → Nat → Nat × Int
  | 0, tried => (b.value / b.den, top - tried)
  | fuel + 1, tried =>
    match b.onGrid? (top - tried) with
    | some n => (n, top - tried)
    | none => b.search top fuel (tried + 1)

/-- Moves zeros at the end of the digits into the exponent. -/
def dropZeros : Nat → Nat → Int → Nat × Int
  | 0, n, k => (n, k)
  | fuel + 1, n, k => if n ≠ 0 ∧ n % 10 = 0 then dropZeros fuel (n / 10) (k + 1) else (n, k)

/-- The decimal `n * 10 ^ k` with the fewest digits that rounds to a positive finite number. -/
def shortest (L : Layout) (significand : Nat) (place : Int) : Nat × Int :=
  let b := L.basin significand place
  let (n, k) := b.search (tensOf b.value b.den) 20 0
  dropZeros 20 n k

end Layout

/-- How digits are laid out: positionally while the exponent of the first digit lies in the given
range, else with an exponent. -/
structure Spread where
  least : Int
  beyond : Int

/-- Exponents from -4 to 5 are written positionally. -/
def Spread.plain : Spread := ⟨-4, 6⟩

/-- Exponents from -6 to 20 are written positionally. -/
def Spread.wide : Spread := ⟨-6, 21⟩

/-- A sign and at least two digits. -/
def exponentText (e : Int) : String :=
  let digits := toString e.natAbs
  (if e < 0 then "-" else "+") ++ (if digits.length < 2 then "0" ++ digits else digits)

def Spread.render (s : Spread) (digits : Nat) (exponent : Int) : String :=
  let ds := Nat.toDigits 10 digits
  let lead := exponent + (ds.length : Int) - 1
  if lead < s.least ∨ s.beyond ≤ lead then
    let body :=
      match ds with
      | [] => []
      | [d] => [d]
      | d :: rest => d :: '.' :: rest
    String.ofList body ++ "e" ++ exponentText lead
  else if 0 ≤ exponent then String.ofList (ds ++ List.replicate exponent.toNat '0')
  else if 0 ≤ lead then
    let whole := lead.toNat + 1
    String.ofList (ds.take whole ++ '.' :: ds.drop whole)
  else String.ofList ('0' :: '.' :: List.replicate (-lead - 1).toNat '0' ++ ds)

def Layout.text (L : Layout) (s : Spread) : Datum → String
  | .nan => "NaN"
  | .infinite true => "-Inf"
  | .infinite false => "+Inf"
  | .finite negative m place =>
    let body :=
      if m = 0 then "0"
      else
        let (n, k) := L.shortest m place
        s.render n k
    if negative then "-" ++ body else body

def Single.text (x : Single) : String := Layout.single.text Spread.plain x.datum

def Double.text (x : Double) : String := Layout.double.text Spread.plain x.datum

/-! ## Reading decimal text -/

/-- The value of a list of decimal digits, on top of what was read before. -/
def digitsValue (acc : Nat) (ds : List Char) : Nat :=
  ds.foldl (fun n c => n * 10 + (c.toNat - 48)) acc

def spanDigits (cs : List Char) : List Char × List Char := (cs.takeWhile Char.isDigit, cs.dropWhile Char.isDigit)

def splitSign : List Char → Bool × List Char
  | '-' :: cs => (true, cs)
  | '+' :: cs => (false, cs)
  | cs => (false, cs)

/-- Reads an optional exponent that ends the text. -/
def readExponent? : List Char → Option Int
  | [] => some 0
  | e :: cs =>
    if e = 'e' ∨ e = 'E' then
      let (negative, ds) := splitSign cs
      if ds.isEmpty ∨ ¬ ds.all Char.isDigit then none
      else
        let n := digitsValue 0 ds
        some (if negative then -(n : Int) else n)
    else none

/-- Reads a decimal number: a sign, digits with at most one point among them and at least one digit,
and an exponent; the sign and the exponent may be missing. -/
def Decimal.parse? (cs : List Char) : Option Decimal :=
  let (negative, body) := splitSign cs
  let (whole, rest) := spanDigits body
  let (fraction, rest) :=
    match rest with
    | '.' :: after => spanDigits after
    | _ => ([], rest)
  if whole.isEmpty ∧ fraction.isEmpty then none
  else do
    let e ← readExponent? rest
    return ⟨negative, digitsValue (digitsValue 0 whole) fraction, e - fraction.length⟩

/-- The nearest double, or none if the number is too large for one. -/
def Decimal.toDouble? (d : Decimal) : Option Double :=
  let bits := d.pattern Layout.double
  if bits % Layout.double.sign = Layout.double.infinity then none else some (Double.ofPattern bits)

/-- The nearest single, infinite if the number is too large. -/
def Decimal.toSingle (d : Decimal) : Single := Single.ofPattern (d.pattern Layout.single)

/-- Reads the text of a single-layout number, the spellings of infinities and NaN included. -/
def Single.parse? (s : String) : Option Single :=
  match s with
  | "NaN" => some (Single.ofPattern Layout.single.quietNaN)
  | "Inf" => some (Single.ofPattern (Layout.single.infinite false))
  | "+Inf" => some (Single.ofPattern (Layout.single.infinite false))
  | "-Inf" => some (Single.ofPattern (Layout.single.infinite true))
  | s => (Decimal.parse? s.toList).map Decimal.toSingle

end Arbor
