import Mycel.Text.Basic

/-!
# UTF-8

A text is read as a sequence of code points and stray bytes. `Utf8.next` splits off the first of
them: a well-formed encoding of a scalar value, or one byte that starts none.
-/

namespace Mycel.Utf8

/-- What stands at the front of a text. -/
inductive Piece where
  /-- A code point, well encoded. -/
  | point (code : Nat)
  /-- A byte that starts no well-formed encoding. -/
  | stray (byte : UInt8)
  deriving DecidableEq, Repr

/-- The payload of a continuation byte, whose two high bits are `10`. -/
def tail? (b : UInt8) : Option Nat :=
  if 0x80 ≤ b ∧ b < 0xC0 then some (b.toNat - 0x80) else none

/-- The code point of the shortest-form encoding that starts the text, with its length. -/
def point? : Text → Option (Nat × Nat)
  | [] => none
  | a :: rest =>
    if a < 0x80 then some (a.toNat, 1)
    else if a < 0xC2 then none
    else if a < 0xE0 then
      match rest with
      | b :: _ => (tail? b).map fun y => ((a.toNat - 0xC0) * 64 + y, 2)
      | _ => none
    else if a < 0xF0 then
      match rest with
      | b :: c :: _ => do
        let y ← tail? b
        let z ← tail? c
        let code := ((a.toNat - 0xE0) * 64 + y) * 64 + z
        if code < 0x800 ∨ (0xD800 ≤ code ∧ code < 0xE000) then none else some (code, 3)
      | _ => none
    else if a < 0xF5 then
      match rest with
      | b :: c :: d :: _ => do
        let y ← tail? b
        let z ← tail? c
        let w ← tail? d
        let code := (((a.toNat - 0xF0) * 64 + y) * 64 + z) * 64 + w
        if code < 0x10000 ∨ 0x110000 ≤ code then none else some (code, 4)
      | _ => none
    else none

/-- The bytes that encode a code point. -/
def encode (code : Nat) : Text :=
  if code < 0x80 then [code.toUInt8]
  else if code < 0x800 then [(0xC0 + code / 64).toUInt8, (0x80 + code % 64).toUInt8]
  else if code < 0x10000 then
    [(0xE0 + code / 4096).toUInt8, (0x80 + code / 64 % 64).toUInt8, (0x80 + code % 64).toUInt8]
  else
    [(0xF0 + code / 262144).toUInt8, (0x80 + code / 4096 % 64).toUInt8,
      (0x80 + code / 64 % 64).toUInt8, (0x80 + code % 64).toUInt8]

/-- The code point that stands in for what cannot be read. -/
def replacement : Nat := 0xFFFD

/-- The pieces of a text. The first argument bounds their number. -/
def piecesWithin : Nat → Text → List Piece
  | 0, _ => []
  | _, [] => []
  | n + 1, b :: rest =>
    match point? (b :: rest) with
    | some (code, width) => .point code :: piecesWithin n ((b :: rest).drop width)
    | none => .stray b :: piecesWithin n rest

/-- A text as code points and stray bytes. -/
def pieces (t : Text) : List Piece := piecesWithin t.length t

/-- The code points of a text that is UTF-8 throughout. -/
def decode? (t : Text) : Option (List Nat) :=
  (pieces t).mapM fun
    | .point code => some code
    | .stray _ => none

/-- Whether a text is UTF-8 throughout. -/
def isValid (t : Text) : Bool :=
  (pieces t).all fun
    | .point _ => true
    | .stray _ => false

/-- The text with one replacement character for each stray byte. -/
def repair (t : Text) : Text :=
  (pieces t).flatMap fun
    | .point code => encode code
    | .stray _ => encode replacement

end Mycel.Utf8
