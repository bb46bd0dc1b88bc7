/-!
Points of time as text: the date and the time of day in Greenwich, to the second.
-/

set_option autoImplicit false

namespace Arbor.Command

/-- The last digits of a number, as many as asked for. -/
def lastDigits : Nat → Nat → List Char
  | 0, _ => []
  | width + 1, n => lastDigits width (n / 10) ++ [Char.ofNat (48 + n % 10)]

/-- Year, month and day of the day with that number, where day 0 is the first of January 1970. Years
are counted from March, so that a leap day is the last day of its year. -/
def civilDate (day : Nat) : Nat × Nat × Nat :=
  let z := day + 719468
  let era := z / 146097
  let dayOfEra := z % 146097
  let yearOfEra := (dayOfEra - dayOfEra / 1460 + dayOfEra / 36524 - dayOfEra / 146096) / 365
  let dayOfYear := dayOfEra - (365 * yearOfEra + yearOfEra / 4 - yearOfEra / 100)
  let marchMonth := (5 * dayOfYear + 2) / 153
  let month := if marchMonth < 10 then marchMonth + 3 else marchMonth - 9
  let year := yearOfEra + era * 400 + (if month ≤ 2 then 1 else 0)
  (year, month, dayOfYear - (153 * marchMonth + 2) / 5 + 1)

/-- The time that many seconds after the start of 1970. -/
def clockText (seconds : Nat) : String :=
  let (year, month, day) := civilDate (seconds / 86400)
  let rest := seconds % 86400
  let two := lastDigits 2
  String.ofList <|
    lastDigits 4 year ++ '-' :: two month ++ '-' :: two day ++ 'T' :: two (rest / 3600) ++
      ':' :: two (rest / 60 % 60) ++ ':' :: two (rest % 60) ++ ['Z']

end Arbor.Command
