import Mycel.Decimal.Whole

/-!
# Numerals

A numeral has a sign, digits with at most one point among them, and an exponent. Digits are decimal,
or hexadecimal after `0x`; the exponent then is one of two and has to be there. Underscores may
divide digits. Very long numerals are not read to the end: once an exponent says ten thousand, its
further digits do not count, and no more than 800 decimal digits are held.
-/

namespace Mycel

/-- The number `coefficient * base ^ exponent`, with a sign. -/
structure Numeral where
  isNegative : Bool
  coefficient : Nat
  base : Nat
  exponent : Int
  /-- The number of digits before the point, from the first that is not zero. -/
  wholeDigits : Nat
  /-- The number of digits after the point. -/
  places : Nat
  deriving DecidableEq, Repr

/-- How numerals are written in a base. -/
structure NumeralStyle where
  /-- The base of the digits. -/
  digits : Nat
  /-- The base of the exponent. -/
  scale : Nat
  /-- By how much a digit after the point lowers the exponent. -/
  place : Nat
  /-- The letter in front of the exponent. -/
  mark : UInt8
  needsExponent : Bool

namespace NumeralStyle

/-- Decimal digits, which may do without an exponent. -/
def decimal : NumeralStyle := ⟨10, 10, 1, 101, false⟩

/-- Hexadecimal digits, of four binary places each. -/
def hexadecimal : NumeralStyle := ⟨16, 2, 4, 112, true⟩

/-- The least exponent after which no further digits count. -/
def exponentLimit : Nat := 10000

/-- The exponent that digits say, as far as they count. -/
def exponentDigits? (t : Text) : Option Nat :=
  if t.isEmpty || !t.all Decimal.isDigit then none
  else some (t.foldl (fun n b => if n < exponentLimit then 10 * n + (b.toNat - 48) else n) 0)

/-- The exponent at the end of a numeral. -/
def exponent? (s : NumeralStyle) : Text → Option Int
  | [] => if s.needsExponent then none else some 0
  | mark :: rest => do
    if Text.lowerByte mark ≠ s.mark then none
    let (sign, digits) := Decimal.sign rest
    return sign * (← exponentDigits? digits)

/-- The numeral that a text without a sign says. -/
def read? (s : NumeralStyle) (isNegative : Bool) (t : Text) : Option Numeral := do
  let isDigit := fun b => Decimal.digitValue b < s.digits
  let whole := t.takeWhile isDigit
  let (places, rest) := match t.dropWhile isDigit with
    | 46 :: r => (r.takeWhile isDigit, r.dropWhile isDigit)
    | r => ([], r)
  let coefficient ← Decimal.ofDigits? s.digits (whole ++ places)
  let exponent ← s.exponent? rest
  return {
    isNegative, coefficient
    base := s.scale
    exponent := exponent - s.place * places.length
    wholeDigits := (whole.dropWhile (· == 48)).length
    places := places.length }

end NumeralStyle

namespace Numeral

/-- The numeral that a text says. -/
def ofText? (t : Text) : Option Numeral :=
  if !Decimal.underscoresFit t then none
  else
    let (sign, t) := Decimal.sign (t.filter (· != 95))
    match Decimal.marked? t with
    | some (16, rest) => NumeralStyle.hexadecimal.read? (sign < 0) rest
    | _ => NumeralStyle.decimal.read? (sign < 0) t

/-- The number of decimal digits that are held. -/
def heldDigits : Nat := 800

/-- The number of decimal digits that are tried first. -/
def leadingDigits : Nat := 19

/-- The magnitude of a numeral with many digits before its point, if the first of them settle it:
whatever follows them, it is the same normal number. -/
def settled? (f : FloatFormat) (n : Numeral) : Option Float :=
  let others := n.wholeDigits + n.places - leadingDigits
  let unit := Nat.pow 10 others
  let leading := n.coefficient / unit
  let x := f.nearest 10 leading (n.exponent + others)
  let y := if n.coefficient % unit = 0 then x else f.nearest 10 (leading + 1) (n.exponent + others)
  if x == y && f.isNormal x then some x else none

/-- The number of a format that is nearest to the magnitude of a numeral. Unless its first digits
settle it, digits before the point that are not held do not count as places either. -/
def magnitude (f : FloatFormat) (n : Numeral) : Float :=
  let excess := n.wholeDigits - heldDigits
  if n.base = 10 ∧ 0 < excess then
    (n.settled? f).getD (f.nearest 10 n.coefficient (n.exponent - excess))
  else f.nearest n.base n.coefficient n.exponent

/-- The number of a format that is nearest to a numeral. -/
def toFloat (f : FloatFormat) (n : Numeral) : Float :=
  let x := n.magnitude f
  if n.isNegative then -x else x

/-- The double nearest to the numeral that a text says. -/
def double? (t : Text) : Option Float := (ofText? t).map (toFloat .double)

/-- The number that a text says, where words in either case stand for those that are not finite. -/
def number? (f : FloatFormat) (t : Text) : Option Float :=
  let (sign, word) := Decimal.sign t.lower
  if word == bytes "inf" || word == bytes "infinity" then some (if sign < 0 then -1 / 0 else 1 / 0)
  else if t.lower == bytes "nan" then some (0 / 0)
  else (ofText? t).map (toFloat f)

end Numeral

end Mycel
