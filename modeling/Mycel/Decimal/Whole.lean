import Mycel.Decimal.Reading

/-!
# Whole numbers

Numerals with a sign and the mark of a base, and the range of 64-bit integers.
-/

namespace Mycel.Decimal

/-- The least number above the 64-bit integers. -/
def wordBound : Int := 9223372036854775808

/-- Whether a number is a 64-bit integer. -/
def isWord (n : Int) : Bool := -wordBound ≤ n && n < wordBound

/-- The whole part of a number. What is no 64-bit integer becomes the least one. -/
def truncate (x : Float) : Int :=
  let b := Binary.ofFloat x
  let magnitude : Int :=
    if b.exponent ≥ 0 then b.mantissa <<< b.exponent.toNat else b.mantissa >>> (-b.exponent).toNat
  let n := if Binary.isNegative x then -magnitude else magnitude
  if x.isFinite && isWord n then n else -wordBound

/-- The value of a digit, with letters for the digits from ten on. -/
def digitValue (b : UInt8) : Nat :=
  if 48 ≤ b ∧ b ≤ 57 then b.toNat - 48
  else if 97 ≤ b ∧ b ≤ 122 then b.toNat - 87
  else if 65 ≤ b ∧ b ≤ 90 then b.toNat - 55
  else 36

/-- The number that digits of a base denote, if there are any and all are below the base. -/
def ofDigits? (base : Nat) (t : Text) : Option Nat :=
  if t.isEmpty || t.any fun b => base ≤ digitValue b then none
  else some (t.foldl (fun n b => base * n + digitValue b) 0)

/-- The base that a mark at the front of a numeral says, and what follows the mark. -/
def marked? : Text → Option (Nat × Text)
  | 48 :: mark :: rest =>
    if mark = 120 ∨ mark = 88 then some (16, rest)
    else if mark = 98 ∨ mark = 66 then some (2, rest)
    else if mark = 111 ∨ mark = 79 then some (8, rest)
    else none
  | _ => none

/-- The base of a numeral, and its digits. Without a mark, a zero in front of other digits says that
they are octal. -/
def base (t : Text) : Nat × Text :=
  match marked? t with
  | some marked => marked
  | none =>
    match t with
    | 48 :: b :: rest => (8, b :: rest)
    | t => (10, t)

/-- The sign of a numeral, and what follows it. -/
def sign : Text → Int × Text
  | 43 :: rest => (1, rest)
  | 45 :: rest => (-1, rest)
  | t => (1, t)

/-- The whole number that a numeral denotes: an optional sign, an optional mark of the base, and
digits. -/
def whole? (t : Text) : Option Int := do
  let (s, t) := sign t
  let (b, digits) := base t
  return s * (← ofDigits? b digits)

/-- Whether every underscore stands between two digits. The first argument says what is a digit, the
second whether one stands in front. -/
def underscoresDivide (isDigit : UInt8 → Bool) : Bool → Text → Bool
  | _, [] => true
  | afterDigit, b :: rest =>
    if b = 95 then
      afterDigit && (rest.head?.map isDigit).getD false && underscoresDivide isDigit false rest
    else underscoresDivide isDigit (isDigit b) rest

/-- Whether every underscore of a numeral stands between two digits. The mark of a base counts as a
digit, and letters are digits only after the mark of hexadecimal ones. -/
def underscoresFit (t : Text) : Bool :=
  let t := (sign t).2
  match marked? t with
  | some (base, rest) => underscoresDivide (fun b => digitValue b < max base 10) true rest
  | none => underscoresDivide isDigit false t

/-- The same, where underscores may divide the digits. -/
def dividedWhole? (t : Text) : Option Int :=
  if underscoresFit t then whole? (t.filter (· != 95)) else none

end Mycel.Decimal
