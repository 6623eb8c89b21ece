import Mycel.Decimal.Binary

/-!
# Rounding

A format of floating-point numbers has a precision and a range of exponents. Each fraction has a
nearest magnitude in it. Of two that are equally near, the one with the even mantissa is taken.
-/

namespace Mycel

/-- A format of floating-point numbers, which doubles can hold. -/
structure FloatFormat where
  /-- The number of binary digits in a mantissa. -/
  precision : Nat
  /-- The exponent of the least positive number. -/
  leastExponent : Int
  /-- The least power of two that is too great. -/
  bound : Int
  deriving DecidableEq, Repr

namespace FloatFormat

/-- Numbers of 64 bits. -/
def double : FloatFormat := ⟨53, Binary.leastExponent, 1024⟩

/-- Numbers of 32 bits. -/
def single : FloatFormat := ⟨24, -149, 128⟩

/-- The whole number nearest to `n / d`, the even one of two. -/
def nearestWhole (n d : Nat) : Nat :=
  let q := n / d
  let twice := 2 * (n % d)
  if twice > d ∨ (twice = d ∧ q % 2 = 1) then q + 1 else q

/-- The fraction `n / d / 2 ^ e`. -/
def shifted (n d : Nat) (e : Int) : Nat × Nat := (n <<< (-e).toNat, d <<< e.toNat)

/-- The exponent of the last binary digit that a mantissa for `n / d` has room for. The fraction is
at least `2 ^ (precision - 1)` times as great as the first guess, and less than four times that. -/
def lastExponent (f : FloatFormat) (n d : Nat) : Int :=
  let e := (n.log2 : Int) - d.log2 - f.precision
  let (a, b) := shifted n d e
  max f.leastExponent (if (a / b).log2 < f.precision then e else e + 1)

/-- The magnitude nearest to `n / d`, if it is not too great. The mantissa may be one power of two
itself. -/
def round (f : FloatFormat) (n d : Nat) : Binary :=
  let e := f.lastExponent n d
  let (a, b) := shifted n d e
  ⟨nearestWhole a b, e⟩

/-- The number nearest to `n / d`. -/
def ofRatio (f : FloatFormat) (n d : Nat) : Float :=
  let b := f.round n d
  if b.mantissa.log2 + b.exponent ≥ f.bound then 1 / 0 else b.toFloat

/-- An exponent beyond those of all numbers, on either side of zero. -/
def far : Int := 2000

/-- The number nearest to `coefficient * base ^ exponent`. Where the exponent alone puts it out of
range, nothing is computed. -/
def nearest (f : FloatFormat) (base coefficient : Nat) (exponent : Int) : Float :=
  if coefficient = 0 ∨ coefficient.log2 + exponent < -far then 0
  else if exponent > far then 1 / 0
  else f.ofRatio (coefficient * Nat.pow base exponent.toNat) (Nat.pow base (-exponent).toNat)

/-- Whether a magnitude is finite and has a mantissa of full precision. -/
def isNormal (f : FloatFormat) (x : Float) : Bool :=
  f.nearest 2 1 (f.leastExponent + f.precision - 1) ≤ x && !x.isInf

/-- The number nearest to a whole number. -/
def ofInt (f : FloatFormat) (n : Int) : Float :=
  let x := f.nearest 10 n.natAbs 0
  if n < 0 then -x else x

end FloatFormat

end Mycel
