import Mycel.Text.Basic

/-!
# Base64

Every three bytes are written as four letters of six bits each. The last group may hold one or two
bytes; then equals signs fill it up, and the bits that are left over do not count. Line ends may
stand anywhere.
-/

namespace Mycel.Base64

/-- The sign that fills up the last group. -/
def padding : UInt8 := 61

/-- The value of a letter. -/
def value? (b : UInt8) : Option Nat :=
  if 65 ≤ b ∧ b ≤ 90 then some (b.toNat - 65)
  else if 97 ≤ b ∧ b ≤ 122 then some (b.toNat - 71)
  else if 48 ≤ b ∧ b ≤ 57 then some (b.toNat + 4)
  else if b = 43 then some 62
  else if b = 47 then some 63
  else none

/-- The bytes of a last group of two letters. -/
def oneByte (x y : Nat) : Text := [(x * 4 + y / 16).toUInt8]

/-- The bytes of a last group of three letters. -/
def twoBytes (x y z : Nat) : Text := oneByte x y ++ [(y * 16 + z / 4).toUInt8]

/-- The bytes of a group of four letters. -/
def threeBytes (x y z w : Nat) : Text := twoBytes x y z ++ [(z * 64 + w).toUInt8]

/-- The bytes of groups. Nothing follows a group that is filled up. -/
def groups? : Text → Option Text
  | [] => some []
  | a :: b :: c :: d :: rest => do
    let x ← value? a
    let y ← value? b
    if c = padding then
      if d = padding ∧ rest.isEmpty then some (oneByte x y) else none
    else
      let z ← value? c
      if d = padding then
        if rest.isEmpty then some (twoBytes x y z) else none
      else
        return threeBytes x y z (← value? d) ++ (← groups? rest)
  | _ => none

/-- The bytes that a text is written for. -/
def decode? (t : Text) : Option Text := groups? (t.filter fun b => b != 10 && b != 13)

end Mycel.Base64
