import Mycel.Decimal.Shortest
import Mycel.Text.Basic

/-!
# Layouts of decimals

A decimal is written positionally or with an exponent. `Layout` holds the choices that differ
between one format and another; `Layout.number` writes a double by them.
-/

namespace Mycel

namespace Decimal

/-- The digits of the coefficient. -/
def digits (d : Decimal) : Text := Text.ofNat d.coefficient

/-- The exponent of the first digit. -/
def leading (d : Decimal) : Int := d.exponent + d.digits.length - 1

/-- Plain digits, with a point if there are places after it. -/
def positional (d : Decimal) : Text :=
  let places := (-d.exponent).toNat
  if d.exponent ≥ 0 then d.digits ++ List.replicate d.exponent.toNat 48
  else if d.digits.length > places then
    let whole := d.digits.length - places
    d.digits.take whole ++ 46 :: d.digits.drop whole
  else bytes "0." ++ List.replicate (places - d.digits.length) 48 ++ d.digits

/-- An exponent: its sign and at least `width` digits. -/
def exponentText (width : Nat) (e : Int) : Text :=
  let magnitude := Text.ofNat e.natAbs
  (if e < 0 then 45 else 43) :: (List.replicate (width - magnitude.length) 48 ++ magnitude)

/-- The first digit, the others after a point, and the exponent of the first digit. -/
def scientific (width : Nat) (d : Decimal) : Text :=
  let fraction := d.digits.drop 1
  d.digits.take 1 ++ (if fraction.isEmpty then [] else 46 :: fraction) ++
    101 :: exponentText width d.leading

end Decimal

/-- How a format writes numbers. -/
structure Layout where
  /-- The least exponent of the first digit that is still written positionally. -/
  least : Int
  /-- The least exponent of the first digit that is no longer written positionally. -/
  bound : Int
  /-- The same bound for whole numbers. -/
  integralBound : Int
  /-- The least number of digits of an exponent. -/
  exponentWidth : Nat
  /-- The texts of the numbers that are not finite. -/
  infinity : String
  negativeInfinity : String
  nan : String

/-- The text of a number in a layout: the shortest decimal that reads back. Negative zero keeps its
sign. -/
def Layout.number (l : Layout) (x : Float) : Text :=
  if x.isNaN then bytes l.nan
  else if x.isInf then bytes (if Binary.isNegative x then l.negativeInfinity else l.infinity)
  else
    let b := Binary.ofFloat x
    let sign : Text := if Binary.isNegative x then [45] else []
    if b.mantissa = 0 then sign ++ [48]
    else
      let d := Decimal.shortest b
      let bound := if b.isIntegral then l.integralBound else l.bound
      sign ++ if l.least ≤ d.leading ∧ d.leading < bound then d.positional
        else d.scientific l.exponentWidth

end Mycel
