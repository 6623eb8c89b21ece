import Mycel.Decimal.Rounding
import Mycel.Text.Basic

/-!
# Reading decimals

A literal of digits with at most one point denotes the double nearest to it. A literal beyond the
range of doubles denotes none.
-/

namespace Mycel.Decimal

/-- Whether a byte is an ASCII digit. -/
def isDigit (b : UInt8) : Bool := 48 ≤ b && b ≤ 57

/-- The number that a sequence of digits denotes. -/
def digitsValue (t : Text) : Nat := t.foldl (fun n b => 10 * n + (b.toNat - 48)) 0

/-- The value of digits with at most one point among them. -/
def literalValue (t : Text) : Float :=
  let whole := t.takeWhile isDigit
  let places := (t.dropWhile isDigit).drop 1
  FloatFormat.double.nearest 10 (digitsValue (whole ++ places)) (-places.length)

/-- The value of a literal, unless it is out of range. -/
def ofLiteral? (t : Text) : Option Float :=
  let x := literalValue t
  if x.isInf then none else some x

end Mycel.Decimal
