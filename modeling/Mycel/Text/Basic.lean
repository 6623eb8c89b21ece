/-!
# Texts

Sources, string values, names and output are sequences of bytes, which need not be valid UTF-8.
`Text` is that type. This file has the operations that the rest of the library needs on it:
texts of numerals, joining, splitting into lines, trimming and the ASCII letter case.
-/

namespace Mycel

/-- A sequence of bytes. -/
abbrev Text := List UInt8

/-- The UTF-8 bytes of a string. -/
def bytes (s : String) : Text := s.toUTF8.data.toList

namespace Text

/-- The line feed, which ends a line. -/
def newline : UInt8 := 10

/-- The decimal digits of a natural number. -/
def ofNat (n : Nat) : Text := (Nat.toDigits 10 n).map fun c => c.toNat.toUInt8

/-- The decimal digits of an integer, after a minus sign when it is negative. -/
def ofInt : Int → Text
  | .ofNat n => ofNat n
  | .negSucc n => 45 :: ofNat (n + 1)

/-- The spelling of a truth value. -/
def ofBool (b : Bool) : Text := if b then bytes "true" else bytes "false"

/-- The lowercase hexadecimal digit of a number below 16. -/
def hexDigit (n : Nat) : UInt8 := if n < 10 then (48 + n).toUInt8 else (87 + n).toUInt8

/-- The last `width` hexadecimal digits of `n`. -/
def hex : Nat → Nat → Text
  | 0, _ => []
  | width + 1, n => hex width (n / 16) ++ [hexDigit (n % 16)]

/-- The texts one after another, with `separator` between neighbours. -/
def join (separator : Text) : List Text → Text
  | [] => []
  | [t] => t
  | t :: ts => t ++ separator ++ join separator ts

/-- `n` spaces. -/
def spaces (n : Nat) : Text := List.replicate n 32

/-- The text set flush right in a field of `width` bytes. -/
def padLeft (width : Nat) (t : Text) : Text := spaces (width - t.length) ++ t

/-- The pieces between occurrences of a byte. There is always at least one piece. -/
def splitOn (separator : UInt8) (t : Text) : List Text :=
  t.foldr (fun b pieces =>
    if b = separator then [] :: pieces
    else match pieces with
      | [] => [[b]]
      | piece :: rest => (b :: piece) :: rest) [[]]

/-- The lines of a text. A final line feed is followed by one more, empty, line. -/
def lines (t : Text) : List Text := t.splitOn newline

/-- Removes the bytes at the end that satisfy `p`. -/
def trimRight (p : UInt8 → Bool) (t : Text) : Text := (t.reverse.dropWhile p).reverse

/-- Whether `t` ends in `suffix`. -/
def endsWith (t suffix : Text) : Bool := suffix.isSuffixOf t

/-- Whether `t` starts with `start`. -/
def startsWith (t start : Text) : Bool := start.isPrefixOf t

/-- `t` without `start` at its front, if it is there. -/
def dropStart? (start t : Text) : Option Text :=
  if t.startsWith start then some (t.drop start.length) else none

/-- Whether `t` contains `part`. -/
def hasPart : Text → Text → Bool
  | [], part => part.isEmpty
  | b :: rest, part => startsWith (b :: rest) part || hasPart rest part

/-- ASCII capital letters become small; every other byte stays. -/
def lowerByte (b : UInt8) : UInt8 := if 65 ≤ b ∧ b ≤ 90 then b + 32 else b

/-- The text with its ASCII capital letters made small. -/
def lower (t : Text) : Text := t.map lowerByte

/-- The bytewise lexicographic order. -/
def le : Text → Text → Bool
  | [], _ => true
  | _ :: _, [] => false
  | a :: s, b :: t => a < b || (a == b && le s t)

/-- Texts in bytewise order. -/
def sort (ts : List Text) : List Text := ts.mergeSort le

end Text

end Mycel
