import Mycel.Decimal.Whole

/-!
# YAML timestamps

A timestamp is a date, or a date and a time of day. After a `T` the time has a zone, after spaces it
has none. All numbers but the year may have one digit or two.
-/

namespace Mycel.Yaml.Timestamp

/-- The number of one or two digits at the front of a text, and what follows it. -/
def number? : Text → Option (Nat × Text)
  | a :: rest =>
    if !Decimal.isDigit a then none
    else match rest with
      | b :: more =>
        if Decimal.isDigit b then some (Decimal.digitsValue [a, b], more)
        else some (Decimal.digitsValue [a], rest)
      | [] => some (Decimal.digitsValue [a], [])
  | [] => none

/-- Whether a year has a leap day. -/
def isLeap (year : Nat) : Bool := year % 4 == 0 && (year % 100 != 0 || year % 400 == 0)

/-- The number of days in a month, from January as the first. -/
def daysIn (year month : Nat) : Nat :=
  if month = 2 then (if isLeap year then 29 else 28)
  else if month = 4 ∨ month = 6 ∨ month = 9 ∨ month = 11 then 30
  else 31

/-- What follows a date with a year of four digits. -/
def afterDate? (t : Text) : Option Text := do
  let digits := t.takeWhile Decimal.isDigit
  if digits.length ≠ 4 then none
  let year := Decimal.digitsValue digits
  let (month, t) ← number? (← Text.dropStart? [45] (t.drop 4))
  if month < 1 ∨ 12 < month then none
  let (day, t) ← number? (← Text.dropStart? [45] t)
  if day < 1 ∨ daysIn year month < day then none
  return t

/-- What follows a part of a second, if one is there. -/
def afterFraction (t : Text) : Text :=
  match t with
  | mark :: b :: rest =>
    if (mark = 46 ∨ mark = 44) ∧ Decimal.isDigit b then rest.dropWhile Decimal.isDigit else t
  | _ => t

/-- What follows a time of day. -/
def afterTime? (t : Text) : Option Text := do
  let (hour, t) ← number? t
  let (minute, t) ← number? (← Text.dropStart? [58] t)
  let (second, t) ← number? (← Text.dropStart? [58] t)
  if 24 ≤ hour ∨ 60 ≤ minute ∨ 60 ≤ second then none
  return afterFraction t

/-- Whether a text is a zone: `Z`, or the hours and minutes by which its clocks are ahead or
behind. -/
def isZone : Text → Bool
  | [90] => true
  | [sign, a, b, 58, c, d] =>
    (sign == 43 || sign == 45) && [a, b, c, d].all Decimal.isDigit &&
      Decimal.digitsValue [a, b] ≤ 24 && Decimal.digitsValue [c, d] ≤ 60
  | _ => false

/-- Whether a text is what can follow a date: nothing, or a time of day. -/
def endsDate : Text → Bool
  | [] => true
  | 84 :: t | 116 :: t => (afterTime? t).any isZone
  | 32 :: t => (afterTime? (t.dropWhile (· == 32))).any List.isEmpty
  | _ => false

/-- Whether a text is a timestamp. -/
def isWritten (t : Text) : Bool := (afterDate? t).any endsDate

end Mycel.Yaml.Timestamp
