/-!
Dates and times as YAML writes them: a date, or a date and a time of day with `T` or `t` and a zone
between and after, or with a space between and no zone. Years have four digits, other parts one or
two; a fraction of a second may follow a point or a comma.
-/

set_option autoImplicit false

namespace Arbor.Yaml.Timestamp

/-- One or two digits. -/
def short? : List Char → Option (Nat × List Char)
  | a :: b :: rest =>
    if a.isDigit then
      if b.isDigit then some ((a.toNat - 48) * 10 + (b.toNat - 48), rest)
      else some (a.toNat - 48, b :: rest)
    else none
  | [a] => if a.isDigit then some (a.toNat - 48, []) else none
  | [] => none

def within? (lo hi : Nat) (cs : List Char) : Option (Nat × List Char) := do
  let (n, rest) ← short? cs
  if lo ≤ n ∧ n ≤ hi then some (n, rest) else none

def char? (x : Char) : List Char → Option (List Char)
  | c :: rest => if c = x then some rest else none
  | [] => none

def isLeap (year : Nat) : Bool := year % 4 == 0 && (year % 100 != 0 || year % 400 == 0)

def daysIn (year month : Nat) : Nat :=
  match month with
  | 2 => if isLeap year then 29 else 28
  | 4 | 6 | 9 | 11 => 30
  | _ => 31

/-- A date, and what follows it. -/
def date? (cs : List Char) : Option (List Char) := do
  let ys := cs.take 4
  if ys.length != 4 || !ys.all Char.isDigit then none
  else
    let year := ys.foldl (fun n d => n * 10 + (d.toNat - 48)) 0
    let (month, rest) ← within? 1 12 (← char? '-' (cs.drop 4))
    let (_, rest) ← within? 1 (daysIn year month) (← char? '-' rest)
    return rest

/-- Passes a fraction of a second, if there is one. -/
def fraction : List Char → List Char
  | p :: d :: rest =>
    if (p == '.' || p == ',') && d.isDigit then rest.dropWhile Char.isDigit else p :: d :: rest
  | cs => cs

/-- A time of day, and what follows it. -/
def clock? (cs : List Char) : Option (List Char) := do
  let (_, rest) ← within? 0 23 cs
  let (_, rest) ← within? 0 59 (← char? ':' rest)
  let (_, rest) ← within? 0 59 (← char? ':' rest)
  return fraction rest

/-- Whether the text is a zone: `Z`, or a sign with two digits of hours and two of minutes. -/
def isZone : List Char → Bool
  | ['Z'] => true
  | [sign, a, b, ':', c, d] =>
    (sign == '+' || sign == '-') && [a, b, c, d].all Char.isDigit &&
      (a.toNat - 48) * 10 + (b.toNat - 48) ≤ 24 && (c.toNat - 48) * 10 + (d.toNat - 48) ≤ 60
  | _ => false

/-- Whether the text is a date or a date with a time. -/
def isTimestamp (cs : List Char) : Bool :=
  match date? cs with
  | none => false
  | some [] => true
  | some (x :: rest) =>
    if x == 'T' || x == 't' then
      match clock? rest with
      | some zone => isZone zone
      | none => false
    else if x == ' ' then clock? (rest.dropWhile (· == ' ')) == some []
    else false

end Arbor.Yaml.Timestamp
