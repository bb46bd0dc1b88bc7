/-!
Bytes as text of 64 characters, in groups of four with padding at the end. Line ends within the text
do not count.
-/

set_option autoImplicit false

namespace Arbor.Text

/-- The value of a character of the alphabet. -/
def sixBits? (c : Char) : Option Nat :=
  if c.isUpper then some (c.toNat - 65)
  else if c.isLower then some (c.toNat - 71)
  else if c.isDigit then some (c.toNat + 4)
  else if c == '+' then some 62
  else if c == '/' then some 63
  else none

/-- The bytes of groups of four characters; only the last group may be padded. -/
def base64Groups? : List Char → Option (List UInt8)
  | [] => some []
  | [a, b, '=', '='] => do
    let n := (← sixBits? a) * 64 + (← sixBits? b)
    return [(n / 16).toUInt8]
  | [a, b, c, '='] => do
    let n := ((← sixBits? a) * 64 + (← sixBits? b)) * 64 + (← sixBits? c)
    return [(n / 1024).toUInt8, (n / 4).toUInt8]
  | a :: b :: c :: d :: rest => do
    let n := (((← sixBits? a) * 64 + (← sixBits? b)) * 64 + (← sixBits? c)) * 64 + (← sixBits? d)
    let more ← base64Groups? rest
    return (n / 65536).toUInt8 :: (n / 256).toUInt8 :: n.toUInt8 :: more
  | _ => none

def decodeBase64? (s : String) : Option (List UInt8) :=
  base64Groups? (s.toList.filter fun c => c != '\n' && c != '\r')

end Arbor.Text
