import Mycel.Text.Utf16
import Mycel.Text.Utf8

/-!
# Characters of YAML texts

A text is UTF-8, or UTF-16 if a byte order mark says so. Few control characters may stand in it.
Five kinds of characters end a line.
-/

namespace Mycel.Yaml

/-- Whether a code point may stand in a text. -/
def isAllowed (code : Nat) : Bool :=
  code == 9 || code == 10 || code == 13 || (0x20 ≤ code && code ≤ 0x7E) || code == 0x85 ||
    (0xA0 ≤ code && code ≤ 0xD7FF) || (0xE000 ≤ code && code ≤ 0xFFFD) ||
    (0x10000 ≤ code && code ≤ 0x10FFFF)

/-- How a text is written in bytes. -/
inductive Encoding where
  | utf8
  | utf16 (order : Utf16.ByteOrder)

namespace Encoding

/-- The encoding that a byte order mark in front says, and the text without the mark. -/
def detect : Text → Encoding × Text
  | 0xFF :: 0xFE :: rest => (utf16 .lowFirst, rest)
  | 0xFE :: 0xFF :: rest => (utf16 .highFirst, rest)
  | 0xEF :: 0xBB :: 0xBF :: rest => (utf8, rest)
  | t => (utf8, t)

/-- The code points of a text. -/
def decode? : Encoding → Text → Option (List Nat)
  | utf8, t => Utf8.decode? t
  | utf16 order, t => Utf16.decode? order t

/-- The number of bytes of a code point. -/
def width : Encoding → Nat → Nat
  | utf8, code => (Utf8.encode code).length
  | utf16 _, code => if code < 0x10000 then 2 else 4

end Encoding

/-- The byte order mark. -/
def byteOrderMark : Char := Char.ofNat 0xFEFF

/-- The number of bytes of a text that are taken in at first. -/
def portion : Nat := 512

/-- The number of code points that fit into some bytes. -/
def fitting (width : Nat → Nat) : Nat → List Nat → Nat
  | _, [] => 0
  | size, code :: rest =>
    if width code ≤ size then fitting width (size - width code) rest + 1 else 0

/-- The characters of a text, and how many of them are taken in at first. -/
def characters? (t : Text) : Option (List Char × Nat) := do
  let (encoding, body) := Encoding.detect t
  let codes ← encoding.decode? body
  if !codes.all isAllowed then none
  let taken := fitting encoding.width (portion - (t.length - body.length)) codes
  return (codes.map Char.ofNat, taken)

/-- The bytes of characters. -/
def encode (cs : List Char) : Text := cs.flatMap fun c => Utf8.encode c.toNat

/-- The mark of a scalar with escapes. -/
def quote : Char := Char.ofNat 34

/-- The mark of a scalar without escapes. -/
def apostrophe : Char := Char.ofNat 39

/-- The character in front of an escape. -/
def backslash : Char := Char.ofNat 92

/-- Whether a character is a space or a tab. -/
def isBlank (c : Char) : Bool := c == ' ' || c == '\t'

/-- Whether a character ends a line and is kept as it is. -/
def isKeptBreak (c : Char) : Bool := c.toNat == 0x2028 || c.toNat == 0x2029

/-- Whether a character ends a line. -/
def isBreak (c : Char) : Bool := c == '\n' || c == '\r' || c.toNat == 0x85 || isKeptBreak c

/-- Whether a character is a blank or ends a line. -/
def isGap (c : Char) : Bool := isBlank c || isBreak c

/-- Whether characters are at their end or go on with a gap. -/
def atGap : List Char → Bool
  | [] => true
  | c :: _ => isGap c

/-- Whether a character can stand in a name. -/
def isNameChar (c : Char) : Bool := c.isAlphanum || c == '_' || c == '-'

/-- The value of a hexadecimal digit. -/
def hexValue? (c : Char) : Option Nat :=
  if '0' ≤ c ∧ c ≤ '9' then some (c.toNat - 48)
  else if 'a' ≤ c ∧ c ≤ 'f' then some (c.toNat - 87)
  else if 'A' ≤ c ∧ c ≤ 'F' then some (c.toNat - 55)
  else none

end Mycel.Yaml
