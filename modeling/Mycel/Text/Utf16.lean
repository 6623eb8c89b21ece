import Mycel.Text.Basic

/-!
# UTF-16

A code point beyond the first 65536 is a pair of surrogates, a high one and a low one.
-/

namespace Mycel.Utf16

/-- Whether a unit is the first half of a surrogate pair. -/
def isHigh (unit : Nat) : Bool := 0xD800 ≤ unit && unit < 0xDC00

/-- Whether a unit is the second half of a surrogate pair. -/
def isLow (unit : Nat) : Bool := 0xDC00 ≤ unit && unit < 0xE000

/-- The code point of a surrogate pair. -/
def pair (high low : Nat) : Nat := 0x10000 + (high - 0xD800) * 0x400 + (low - 0xDC00)

/-- The order of the two bytes of a unit. -/
inductive ByteOrder where
  | highFirst
  | lowFirst
  deriving DecidableEq, Repr

/-- The units of a text, which has to have an even number of bytes. -/
def units? (order : ByteOrder) : Text → Option (List Nat)
  | [] => some []
  | [_] => none
  | a :: b :: rest =>
    let unit := match order with
      | .highFirst => a.toNat * 256 + b.toNat
      | .lowFirst => b.toNat * 256 + a.toNat
    (units? order rest).map (unit :: ·)

/-- The code points of units, unless a surrogate stands alone. -/
def points? : List Nat → Option (List Nat)
  | [] => some []
  | u :: rest =>
    if isLow u then none
    else if isHigh u then
      match rest with
      | v :: rest => if isLow v then (points? rest).map (pair u v :: ·) else none
      | [] => none
    else (points? rest).map (u :: ·)

/-- The code points of a text. -/
def decode? (order : ByteOrder) (t : Text) : Option (List Nat) := (units? order t).bind points?

end Mycel.Utf16
