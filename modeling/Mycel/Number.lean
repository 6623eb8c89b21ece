import Mycel.Decimal.Layout

/-!
# The text of numbers

Programs and printed values show a number by the fewest digits that read back as it.
-/

namespace Mycel.Number

/-- Whole numbers below `10 ^ 21` are written without an exponent; other numbers have one below
`10 ^ -4` and from `10 ^ 6` on. An exponent has a sign and at least two digits. -/
def layout : Layout :=
  { least := -4
    bound := 6
    integralBound := 21
    exponentWidth := 2
    infinity := "Infinity"
    negativeInfinity := "-Infinity"
    nan := "NaN" }

/-- The text of a number. -/
def text (x : Float) : Text := layout.number x

end Mycel.Number
