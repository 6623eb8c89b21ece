import Mycel.Text.Utf8

/-!
# White space

The code points with the property of white space, and texts without it at their ends.
-/

namespace Mycel

namespace Utf8

/-- Whether a code point is white space. -/
def isSpace (code : Nat) : Bool :=
  (9 ≤ code && code ≤ 13) || code == 32 || code == 0x85 || code == 0xA0 || code == 0x1680 ||
    (0x2000 ≤ code && code ≤ 0x200A) || code == 0x2028 || code == 0x2029 || code == 0x202F ||
    code == 0x205F || code == 0x3000

/-- Whether a piece is white space. -/
def Piece.isSpace : Piece → Bool
  | .point code => Utf8.isSpace code
  | .stray _ => false

/-- The bytes of a piece. -/
def Piece.bytes : Piece → Text
  | .point code => encode code
  | .stray b => [b]

end Utf8

namespace Text

/-- The text without white space at its ends. -/
def trim (t : Text) : Text :=
  let front := (Utf8.pieces t).dropWhile Utf8.Piece.isSpace
  ((front.reverse.dropWhile Utf8.Piece.isSpace).reverse).flatMap Utf8.Piece.bytes

/-- Whether a text is white space throughout. -/
def isBlank (t : Text) : Bool := (Utf8.pieces t).all Utf8.Piece.isSpace

end Text

end Mycel
