import Arbor.Text.Utf8

/-!
The characters of a YAML stream.

A byte order mark selects the encoding; without one it is UTF-8. A stream holds tabs, line ends and
printable characters only, and nothing that is not well formed in its encoding.
-/

set_option autoImplicit false

namespace Arbor.Yaml

def isAllowed (c : Char) : Bool :=
  let n := c.toNat
  n == 0x09 || n == 0x0A || n == 0x0D || (0x20 ≤ n && n ≤ 0x7E) || n == 0x85 ||
    (0xA0 ≤ n && n ≤ 0xD7FF) || (0xE000 ≤ n && n ≤ 0xFFFD) || 0x10000 ≤ n

/-- The 16-bit units of bytes, the low byte first or last. -/
def units? (lowFirst : Bool) : List UInt8 → Option (List Nat)
  | [] => some []
  | [_] => none
  | a :: b :: rest => do
    let us ← units? lowFirst rest
    return (if lowFirst then a.toNat + 256 * b.toNat else 256 * a.toNat + b.toNat) :: us

/-- The characters of 16-bit units; surrogates come in pairs. -/
def unitChars? : List Nat → Option (List Char)
  | [] => some []
  | [u] => if 0xD800 ≤ u ∧ u < 0xE000 then none else some [Char.ofNat u]
  | u :: v :: rest =>
    if 0xD800 ≤ u ∧ u < 0xDC00 then
      if 0xDC00 ≤ v ∧ v < 0xE000 then do
        let cs ← unitChars? rest
        return Char.ofNat (0x10000 + (u - 0xD800) * 0x400 + (v - 0xDC00)) :: cs
      else none
    else if 0xDC00 ≤ u ∧ u < 0xE000 then none
    else do
      let cs ← unitChars? (v :: rest)
      return Char.ofNat u :: cs

/-- The characters of a stream, without the byte order mark in front. -/
def source? (bytes : List UInt8) : Option (List Char) := do
  let cs ←
    match bytes with
    | 0xEF :: 0xBB :: 0xBF :: rest => Text.decode? rest
    | 0xFF :: 0xFE :: rest => units? true rest >>= unitChars?
    | 0xFE :: 0xFF :: rest => units? false rest >>= unitChars?
    | _ => Text.decode? bytes
  if cs.all isAllowed then some cs else none

end Arbor.Yaml
