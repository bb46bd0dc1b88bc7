/-!
Binary floating-point numbers by their bit patterns.

A `Layout` gives the widths of the exponent and fraction fields. `Layout.read` takes a bit pattern
apart, `Layout.round` finds the bit pattern nearest to a ratio of naturals (ties go to the even
significand). `Single` and `Double` are the two layouts programs and documents use; they are
compared by `Single.same`, for which the two zeros are equal and no NaN equals anything.
-/

set_option autoImplicit false

namespace Arbor

/-- The widths in bits of the two fields below the sign. -/
structure Layout where
  exponent : Nat
  fraction : Nat
  deriving DecidableEq, Repr

/-- What a bit pattern stands for; a finite number is `significand * 2 ^ place`. -/
inductive Datum where
  | nan
  | infinite (negative : Bool)
  | finite (negative : Bool) (significand : Nat) (place : Int)
  deriving DecidableEq, Repr

namespace Layout

def single : Layout := ⟨8, 23⟩

def double : Layout := ⟨11, 52⟩

/-- The exponent of two in the last place of the smallest numbers. -/
def leastPlace (L : Layout) : Int := (2 : Int) - Nat.pow 2 (L.exponent - 1) - L.fraction

/-- The pattern of positive infinity; finite numbers lie below it and NaNs above. -/
def infinity (L : Layout) : Nat := (Nat.pow 2 L.exponent - 1) * Nat.pow 2 L.fraction

/-- The pattern that only has the sign bit. -/
def sign (L : Layout) : Nat := Nat.pow 2 (L.exponent + L.fraction)

def quietNaN (L : Layout) : Nat := L.infinity + Nat.pow 2 (L.fraction - 1)

def read (L : Layout) (bits : Nat) : Datum :=
  let negative := L.sign ≤ bits
  let magnitude := bits % L.sign
  if L.infinity < magnitude then .nan
  else if magnitude = L.infinity then .infinite negative
  else
    let field := magnitude / Nat.pow 2 L.fraction
    let fraction := magnitude % Nat.pow 2 L.fraction
    if field = 0 then .finite negative fraction L.leastPlace
    else .finite negative (fraction + Nat.pow 2 L.fraction) (L.leastPlace + (field - 1 : Nat))

/-- The natural number nearest to `num / den`; a tie goes to the even one. -/
def nearest (num den : Nat) : Nat :=
  let q := num / den
  let r := num % den
  if 2 * r < den then q
  else if den < 2 * r then q + 1
  else q + q % 2

/-- Numerator and denominator of `num / den / 2 ^ k`. -/
def scale (num den : Nat) (k : Int) : Nat × Nat :=
  if 0 ≤ k then (num, den * Nat.pow 2 k.toNat) else (num * Nat.pow 2 (-k).toNat, den)

/-- The exponent of the greatest power of two that is at most `num / den`, for positive ones. -/
def magnitudeOf (num den : Nat) : Int :=
  let guess : Int := (Nat.log2 num : Int) - Nat.log2 den
  let (n, d) := scale num den guess
  if d ≤ n then guess else guess - 1

/-- The pattern nearest to `num / den` with the given sign; what is too large becomes infinite.

Counting patterns upward from zero, each step is one unit in the last place, so the significand may
spill into the exponent field and still name the right number. -/
def round (L : Layout) (negative : Bool) (num den : Nat) : Nat :=
  let magnitude :=
    if num = 0 then 0
    else
      let place := max L.leastPlace (magnitudeOf num den - L.fraction)
      let (n, d) := scale num den place
      min L.infinity ((place - L.leastPlace).toNat * Nat.pow 2 L.fraction + nearest n d)
  if negative then L.sign + magnitude else magnitude

def infinite (L : Layout) (negative : Bool) : Nat :=
  if negative then L.sign + L.infinity else L.infinity

def ofInt (L : Layout) (n : Int) : Nat := L.round (decide (n < 0)) n.natAbs 1

def ofDatum (L : Layout) : Datum → Nat
  | .nan => L.quietNaN
  | .infinite negative => L.infinite negative
  | .finite negative m place =>
    if 0 ≤ place then L.round negative (m * Nat.pow 2 place.toNat) 1
    else L.round negative m (Nat.pow 2 (-place).toNat)

end Layout

/-- A number of the single layout, by its bit pattern. -/
structure Single where
  bits : UInt32
  deriving DecidableEq, Repr

/-- A number of the double layout, by its bit pattern. -/
structure Double where
  bits : UInt64
  deriving DecidableEq, Repr

namespace Single

def datum (x : Single) : Datum := Layout.single.read x.bits.toNat

def ofPattern (bits : Nat) : Single := ⟨bits.toUInt32⟩

def ofInt (n : Int) : Single := ofPattern (Layout.single.ofInt n)

def isNaN (x : Single) : Bool := Layout.single.infinity < x.bits.toNat % Layout.single.sign

/-- Whether the number is neither infinite nor a NaN. -/
def isFinite (x : Single) : Bool := x.bits.toNat % Layout.single.sign < Layout.single.infinity

def isZero (x : Single) : Bool := x.bits.toNat % Layout.single.sign = 0

/-- Numerical equality: the two zeros are equal, and a NaN equals nothing. -/
def same (x y : Single) : Bool :=
  !x.isNaN && !y.isNaN && (x.bits == y.bits || (x.isZero && y.isZero))

end Single

namespace Double

def datum (x : Double) : Datum := Layout.double.read x.bits.toNat

def ofPattern (bits : Nat) : Double := ⟨bits.toUInt64⟩

def ofInt (n : Int) : Double := ofPattern (Layout.double.ofInt n)

def isNaN (x : Double) : Bool := Layout.double.infinity < x.bits.toNat % Layout.double.sign

def isZero (x : Double) : Bool := x.bits.toNat % Layout.double.sign = 0

/-- Numerical equality: the two zeros are equal, and a NaN equals nothing. -/
def same (x y : Double) : Bool :=
  !x.isNaN && !y.isNaN && (x.bits == y.bits || (x.isZero && y.isZero))

def toSingle (x : Double) : Single := Single.ofPattern (Layout.single.ofDatum x.datum)

end Double

end Arbor
