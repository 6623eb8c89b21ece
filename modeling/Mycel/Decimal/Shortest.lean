import Mycel.Decimal.Binary

/-!
# Shortest decimals

A positive double stands for an interval of reals: those that are rounded to it. `Decimal.shortest`
finds the decimal in that interval which has the fewest digits, and of those the one nearest to the
double. It looks at ever finer decimal grids. If a point of a grid lies in the interval, then so
does one of the two neighbours of the double on that grid, so only these two are tried.
-/

namespace Mycel

/-- The decimal `coefficient * 10 ^ exponent`. -/
structure Decimal where
  coefficient : Nat
  exponent : Int
  deriving DecidableEq, Repr

namespace Decimal

/-- Four times the mantissa, two binary places further down, so that the ends of the rounding
interval are whole too. -/
structure Interval where
  low : Nat
  value : Nat
  high : Nat
  exponent : Int
  /-- Whether the ends belong to the interval. -/
  closed : Bool

/-- The reals that are rounded to a positive double. Below a power of two the neighbour is
nearer. -/
def interval (b : Binary) : Interval :=
  let atPower := b.mantissa = Binary.leastNormal ∧ b.exponent ≠ Binary.leastExponent
  { low := if atPower then 4 * b.mantissa - 1 else 4 * b.mantissa - 2
    value := 4 * b.mantissa
    high := 4 * b.mantissa + 2
    exponent := b.exponent - 2
    closed := b.mantissa % 2 = 0 }

/-- A factor `10 ^ p / 2 ^ e` as a fraction of whole numbers. -/
def scale (p e : Int) : Nat × Nat :=
  (Nat.pow 10 p.toNat * Nat.pow 2 (-e).toNat, Nat.pow 2 e.toNat * Nat.pow 10 (-p).toNat)

/-- Whether `c * 10 ^ p` lies in the interval. -/
def Interval.holds (i : Interval) (c : Nat) (p : Int) : Bool :=
  let (up, down) := scale p i.exponent
  if i.closed then i.low * down ≤ c * up && c * up ≤ i.high * down
  else i.low * down < c * up && c * up < i.high * down

/-- The best point of the grid `10 ^ p` in the interval. -/
def Interval.onGrid? (i : Interval) (p : Int) : Option Nat :=
  let (up, down) := scale p i.exponent
  let c := i.value * down / up
  match i.holds c p, i.holds (c + 1) p with
  | false, false => none
  | true, false => some c
  | false, true => some (c + 1)
  | true, true =>
    let below := i.value * down - c * up
    let above := (c + 1) * up - i.value * down
    if below < above ∨ (below = above ∧ c % 2 = 0) then some c else some (c + 1)

/-- Tries the grids `10 ^ p`, `10 ^ (p - 1)`, … until one has a point in the interval. -/
def Interval.scan (i : Interval) : Nat → Int → Decimal
  | 0, p => ⟨0, p⟩
  | n + 1, p =>
    match i.onGrid? p with
    | some c => ⟨c, p⟩
    | none => i.scan n (p - 1)

/-- A power of ten that is greater than the magnitude. -/
def ceiling (b : Binary) : Int := (b.mantissa.log2 + b.exponent + 1) * 30103 / 100000 + 2

/-- The shortest decimal that is rounded to a positive double, and the nearest of those. Seventeen
digits always suffice, and the scan starts at most four places above the first of them. -/
def shortest (b : Binary) : Decimal := (interval b).scan 22 (ceiling b)

end Decimal

end Mycel
