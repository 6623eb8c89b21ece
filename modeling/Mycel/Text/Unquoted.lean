import Mycel.Decimal.Whole
import Mycel.Text.Quoted

/-!
# Reading quoted texts

A text between double quotes is read back: a letter after a backslash names a control character, and
numbers give a byte in two hexadecimal or three octal digits, or a code point in four or eight
hexadecimal ones. No line ends between the quotes.
-/

namespace Mycel.Quoted

/-- The control character that a letter names after a backslash. -/
def control? (letter : UInt8) : Option UInt8 :=
  ([7, 8, 9, 10, 11, 12, 13] : Text).find? fun b => letter? b.toNat == some letter

/-- The number of `width` digits of a base at the front of a text. -/
def number? (base width : Nat) (t : Text) : Option Nat :=
  if t.length < width then none else Decimal.ofDigits? base (t.take width)

/-- Whether a code point can be encoded. -/
def isScalar (code : Nat) : Bool := code < 0xD800 || (0xE000 ≤ code && code < 0x110000)

/-- The code point that hexadecimal digits give. -/
def hexPoint? (width : Nat) (t : Text) : Option Nat := do
  let code ← number? 16 width t
  if isScalar code then some code else none

/-- What the text after a backslash stands for, and the text after that. -/
def escape? : Text → Option (Text × Text)
  | [] => none
  | b :: rest =>
    if b = 120 then (number? 16 2 rest).map fun n => ([n.toUInt8], rest.drop 2)
    else if b = 117 then (hexPoint? 4 rest).map fun code => (Utf8.encode code, rest.drop 4)
    else if b = 85 then (hexPoint? 8 rest).map fun code => (Utf8.encode code, rest.drop 8)
    else if 48 ≤ b ∧ b ≤ 55 then do
      let n ← number? 8 3 (b :: rest)
      if n < 256 then some ([n.toUInt8], rest.drop 2) else none
    else if b = 34 ∨ b = 92 then some ([b], rest)
    else (control? b).map fun c => ([c], rest)

/-- The text up to the closing quote, and what follows it. The first argument bounds its length. -/
def readWithin : Nat → Text → Option (Text × Text)
  | 0, _ => none
  | _, [] => none
  | n + 1, b :: rest =>
    if b = 34 then some ([], rest)
    else if b = Text.newline then none
    else do
      let (piece, rest) ← if b = 92 then escape? rest
        else match Utf8.point? (b :: rest) with
          | some (code, width) => some (Utf8.encode code, (b :: rest).drop width)
          | none => some (Utf8.encode Utf8.replacement, rest)
      let (more, rest) ← readWithin n rest
      return (piece ++ more, rest)

/-- The text after an opening quote up to the closing one, and what follows it. -/
def read? (t : Text) : Option (Text × Text) := readWithin (t.length + 1) t

end Mycel.Quoted
