/-!
# Floating-point numbers as scaled integers

A finite double is a sign and a magnitude `mantissa * 2 ^ exponent`. This file takes a number apart
into these, puts one together from them, and computes the remainder of a division exactly.
-/

namespace Mycel

/-- The magnitude `mantissa * 2 ^ exponent`. -/
structure Binary where
  mantissa : Nat
  exponent : Int
  deriving DecidableEq, Repr

namespace Binary

/-- The exponent of the least positive double, and of every subnormal one. -/
def leastExponent : Int := -1074

/-- The least mantissa of a normal number, `2 ^ 52`. -/
def leastNormal : Nat := 4503599627370496

/-- The magnitude of a finite number. -/
def ofFloat (x : Float) : Binary :=
  let bits := x.toBits.toNat
  let fraction := bits % leastNormal
  let biased := bits / leastNormal % 2048
  if biased = 0 then ⟨fraction, leastExponent⟩
  else ⟨fraction + leastNormal, leastExponent + (biased - 1 : Nat)⟩

/-- Whether the sign bit of a number is set. -/
def isNegative (x : Float) : Bool := x.toBits.toNat ≥ 2048 * leastNormal

/-- The positive number of a magnitude whose mantissa is at most `2 ^ 53` and whose exponent is at
least `leastExponent`. -/
def toFloat (b : Binary) : Float :=
  if b.mantissa = 0 then Float.ofBits 0
  else
    let shift := min (52 - b.mantissa.log2) (b.exponent - leastExponent).toNat
    let mantissa := b.mantissa <<< shift
    let exponent := b.exponent - shift
    if mantissa < leastNormal then Float.ofBits mantissa.toUInt64
    else
      let biased := (exponent - leastExponent).toNat + 1
      Float.ofBits (biased * leastNormal + (mantissa - leastNormal)).toUInt64

/-- Whether the magnitude is a whole number. -/
def isIntegral (b : Binary) : Bool :=
  b.exponent ≥ 0 || b.mantissa % Nat.pow 2 (-b.exponent).toNat == 0

/-- What is left of `a` after taking away `b` as often as possible. -/
def rem (a b : Binary) : Binary :=
  let least := min a.exponent b.exponent
  ⟨(a.mantissa <<< (a.exponent - least).toNat) % (b.mantissa <<< (b.exponent - least).toNat), least⟩

end Binary

/-- The remainder of `x` by `y`, truncating: it has the sign of `x` and a magnitude below that of
`y`. A number divided by an infinity is its own remainder; an infinity, a zero divisor or a NaN
has none. -/
def remainder (x y : Float) : Float :=
  if x.isNaN || y.isNaN || x.isInf || y == 0 then 0 / 0
  else if y.isInf then x
  else
    let r := ((Binary.ofFloat x).rem (Binary.ofFloat y)).toFloat
    if Binary.isNegative x then -r else r

end Mycel
