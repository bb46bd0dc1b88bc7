/-!
Text as bytes.

`decodeLossy` reads bytes as UTF-8 and puts the replacement character for each byte that is not part
of a well-formed sequence; `decode?` refuses such bytes.
-/

set_option autoImplicit false

namespace Arbor.Text

def replacement : Char := Char.ofNat 0xFFFD

/-- The payload of a continuation byte. -/
def continuation? (b : UInt8) : Option Nat :=
  if 0x80 ≤ b ∧ b ≤ 0xBF then some (b.toNat - 0x80) else none

/-- The code point made of a lead byte's payload and the following continuation bytes, if it lies
in `lo`..`hi` and is no surrogate. -/
def sequence? (lead : Nat) (tail : List UInt8) (lo hi : Nat) : Option Char := do
  let n ← tail.foldlM (fun acc b => do return acc * 64 + (← continuation? b)) lead
  if lo ≤ n ∧ n ≤ hi ∧ ¬ (0xD800 ≤ n ∧ n ≤ 0xDFFF) then some (Char.ofNat n) else none

/-- The first character of the bytes and the number of bytes it takes, if they start with a
well-formed sequence. -/
def firstChar? : List UInt8 → Option (Char × Nat)
  | [] => none
  | a :: rest =>
    let n := a.toNat
    if n < 0x80 then some (Char.ofNat n, 1)
    else if 0xC2 ≤ n ∧ n ≤ 0xDF then
      match rest with
      | b :: _ => (sequence? (n - 0xC0) [b] 0x80 0x7FF).map (·, 2)
      | _ => none
    else if 0xE0 ≤ n ∧ n ≤ 0xEF then
      match rest with
      | b :: c :: _ => (sequence? (n - 0xE0) [b, c] 0x800 0xFFFF).map (·, 3)
      | _ => none
    else if 0xF0 ≤ n ∧ n ≤ 0xF4 then
      match rest with
      | b :: c :: d :: _ => (sequence? (n - 0xF0) [b, c, d] 0x10000 0x10FFFF).map (·, 4)
      | _ => none
    else none

/-- Reads characters one by one; the count tells how many bytes of a character already read are
still to be passed over. -/
def decodeFrom (bad : Option Char) : Nat → List UInt8 → List Char → Option (List Char)
  | _, [], acc => some acc.reverse
  | skip + 1, _ :: rest, acc => decodeFrom bad skip rest acc
  | 0, b :: rest, acc =>
    match firstChar? (b :: rest) with
    | some (c, width) => decodeFrom bad (width - 1) rest (c :: acc)
    | none =>
      match bad with
      | some r => decodeFrom bad 0 rest (r :: acc)
      | none => none

/-- The characters of UTF-8 bytes, if they are well formed. -/
def decode? (bytes : List UInt8) : Option (List Char) := decodeFrom none 0 bytes []

/-- The characters of UTF-8 bytes, with a replacement character for each byte out of place. -/
def decodeLossy (bytes : List UInt8) : List Char :=
  (decodeFrom (some replacement) 0 bytes []).getD []

def bytes (s : String) : List UInt8 := s.toUTF8.toList

end Arbor.Text
