import Mycel.Text.Printable
import Mycel.Text.Utf8

/-!
# Quoted texts

Diagnostics and printed programs show a text between quotation marks. The mark itself and the
backslash are escaped by a backslash, the common control characters have letters, a code point that
is not printable is given in hexadecimal, and so is a stray byte. Everything else stands as it is.
-/

namespace Mycel.Quoted

/-- The letter that names a control character after a backslash. -/
def letter? : Nat → Option UInt8
  | 7 => some 97
  | 8 => some 98
  | 12 => some 102
  | 10 => some 110
  | 13 => some 114
  | 9 => some 116
  | 11 => some 118
  | _ => none

/-- A code point as it stands between two marks `mark`. -/
def point (mark : UInt8) (code : Nat) : Text :=
  if code = mark.toNat ∨ code = 92 then [92, code.toUInt8]
  else if Printable.isPrintable code then Utf8.encode code
  else match letter? code with
    | some c => [92, c]
    | none =>
      if code < 32 ∨ code = 127 then bytes "\\x" ++ Text.hex 2 code
      else if code < 0x10000 then bytes "\\u" ++ Text.hex 4 code
      else bytes "\\U" ++ Text.hex 8 code

/-- A piece of a text as it stands between two marks. -/
def piece (mark : UInt8) : Utf8.Piece → Text
  | .point code => point mark code
  | .stray byte => bytes "\\x" ++ Text.hex 2 byte.toNat

/-- A text between double quotes. -/
def text (t : Text) : Text := 34 :: (Utf8.pieces t).flatMap (piece 34) ++ [34]

/-- A code point between single quotes. -/
def character (code : Nat) : Text := 39 :: point 39 code ++ [39]

end Mycel.Quoted
