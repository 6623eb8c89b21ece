import Mycel.Json.Basic

/-!
# Writing JSON

A value is written without blanks. Strings are expected to be UTF-8; control characters, the quote
and the backslash are escaped.
-/

namespace Mycel.Json

/-- A byte of a string between quotes. -/
def escapeByte (b : UInt8) : Text :=
  if b = 34 ∨ b = 92 then [92, b]
  else if b < 32 then bytes "\\u" ++ Text.hex 4 b.toNat
  else [b]

/-- A string between quotes. -/
def writeString (t : Text) : Text := 34 :: t.flatMap escapeByte ++ [34]

mutual

/-- The text of a value. -/
def write : Json → Text
  | null => bytes "null"
  | bool b => Text.ofBool b
  | number l => l
  | string s => writeString s
  | array es => bytes "[" ++ Text.join (bytes ",") (writeAll es) ++ bytes "]"
  | object ms => bytes "\x7b" ++ Text.join (bytes ",") (writeMembers ms) ++ bytes "\x7d"

/-- The texts of values. -/
def writeAll : List Json → List Text
  | [] => []
  | j :: rest => j.write :: writeAll rest

/-- The texts of members. -/
def writeMembers : List (Text × Json) → List Text
  | [] => []
  | (name, j) :: rest => (writeString name ++ 58 :: j.write) :: writeMembers rest

end

end Mycel.Json
