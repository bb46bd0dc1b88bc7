/-!
Lower case, as far as it falls on ASCII.

File extensions and package names are compared with ASCII words only, so of the Unicode mapping no
more is needed than the characters whose lower case is an ASCII letter: the capital letters, the
Kelvin sign and the dotted capital I. Every other character stays as it is and is ASCII exactly if it
was before.
-/

set_option autoImplicit false

namespace Arbor.Text

/-- The lower case of a character if that is an ASCII letter, else the character itself. -/
def lowerChar (c : Char) : Char :=
  if c.toNat = 0x212A then 'k'
  else if c.toNat = 0x130 then 'i'
  else c.toLower

def lower (s : String) : String := String.ofList (s.toList.map lowerChar)

/-- Characters that stand for themselves in the name of a package directory. -/
def isSegmentChar (c : Char) : Bool := c.isLower || c.isDigit || c == '_'

/-- Lower case with every character that is not a letter, a digit or an underscore replaced by an
underscore: safe as the name of a directory. -/
def segment (cs : List Char) : List Char :=
  cs.map fun c =>
    let l := lowerChar c
    if isSegmentChar l then l else '_'

end Arbor.Text
