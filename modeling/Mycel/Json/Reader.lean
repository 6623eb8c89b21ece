import Mycel.Json.Basic
import Mycel.Text.Utf16
import Mycel.Text.Utf8

/-!
# Reading JSON

The reader takes exactly the texts of the JSON grammar. In strings, bytes that are not UTF-8 and
surrogates without a partner become replacement characters.
-/

namespace Mycel.Json

/-- The bytes that may stand between the parts of a text. -/
def isSpace (b : UInt8) : Bool := b == 32 || b == 9 || b == 10 || b == 13

/-- The text from its first byte that is no space. -/
def skipSpace (t : Text) : Text := t.dropWhile isSpace

/-- The value of a hexadecimal digit. -/
def hexValue? (b : UInt8) : Option Nat :=
  if 48 ≤ b ∧ b ≤ 57 then some (b.toNat - 48)
  else if 97 ≤ b ∧ b ≤ 102 then some (b.toNat - 87)
  else if 65 ≤ b ∧ b ≤ 70 then some (b.toNat - 55)
  else none

/-- The number of four hexadecimal digits. -/
def hex4? (a b c d : UInt8) : Option Nat := do
  return (((← hexValue? a) * 16 + (← hexValue? b)) * 16 + (← hexValue? c)) * 16 + (← hexValue? d)

/-- The byte that a one-letter escape stands for. -/
def escaped? : UInt8 → Option UInt8
  | 34 => some 34
  | 92 => some 92
  | 47 => some 47
  | 98 => some 8
  | 102 => some 12
  | 110 => some 10
  | 114 => some 13
  | 116 => some 9
  | _ => none

/-- A part of a string: a byte that stands for itself, or a number given by an escape. -/
inductive Part where
  | byte (b : UInt8)
  | unit (code : Nat)

/-- The parts of a string after its opening quote, and the text after its closing one. -/
def parts? : Text → Option (List Part × Text)
  | [] => none
  | 34 :: rest => some ([], rest)
  | 92 :: 117 :: a :: b :: c :: d :: rest => do
    let code ← hex4? a b c d
    let (ps, rest) ← parts? rest
    return (.unit code :: ps, rest)
  | 92 :: e :: rest => do
    let b ← escaped? e
    let (ps, rest) ← parts? rest
    return (.byte b :: ps, rest)
  | b :: rest => do
    if b < 32 then none
    let (ps, rest) ← parts? rest
    return (.byte b :: ps, rest)

/-- The bytes of a string. -/
def assemble : List Part → Text
  | [] => []
  | .byte b :: rest => b :: assemble rest
  | .unit high :: .unit low :: rest =>
    if Utf16.isHigh high && Utf16.isLow low then
      Utf8.encode (Utf16.pair high low) ++ assemble rest
    else if Utf16.isHigh high || Utf16.isLow high then
      Utf8.encode Utf8.replacement ++ assemble (.unit low :: rest)
    else Utf8.encode high ++ assemble (.unit low :: rest)
  | .unit code :: rest =>
    (if Utf16.isHigh code || Utf16.isLow code then Utf8.encode Utf8.replacement
      else Utf8.encode code)
      ++ assemble rest

/-- A string after its opening quote, and the text after it. -/
def string? (t : Text) : Option (Text × Text) := do
  let (ps, rest) ← parts? t
  return (Utf8.repair (assemble ps), rest)

/-- Whether a byte is a digit. -/
def isDigit (b : UInt8) : Bool := 48 ≤ b && b ≤ 57

/-- Digits, of which there has to be one, and the text after them. -/
def digits? (t : Text) : Option (Text × Text) :=
  let ds := t.takeWhile isDigit
  if ds.isEmpty then none else some (ds, t.dropWhile isDigit)

/-- The whole part of a number: no zero stands before another digit. -/
def whole? : Text → Option (Text × Text)
  | 48 :: rest => some ([48], rest)
  | t => digits? t

/-- The places after a point, if there is one. -/
def fraction? : Text → Option (Text × Text)
  | 46 :: rest => do
    let (ds, rest) ← digits? rest
    return (46 :: ds, rest)
  | t => some ([], t)

/-- The sign of an exponent, if there is one. -/
def sign : Text → Text × Text
  | 43 :: rest => ([43], rest)
  | 45 :: rest => ([45], rest)
  | t => ([], t)

/-- An exponent, if there is one. -/
def exponent? : Text → Option (Text × Text)
  | [] => some ([], [])
  | e :: rest =>
    if e = 101 ∨ e = 69 then do
      let (s, rest) := sign rest
      let (ds, rest) ← digits? rest
      return (e :: s ++ ds, rest)
    else some ([], e :: rest)

/-- A number, and the text after it. -/
def number? (t : Text) : Option (Text × Text) := do
  let (minus, t) := match t with
    | 45 :: rest => ([45], rest)
    | t => (([] : Text), t)
  let (whole, t) ← whole? t
  let (fraction, t) ← fraction? t
  let (exponent, t) ← exponent? t
  return (minus ++ whole ++ fraction ++ exponent, t)

mutual

/-- A value at the front of a text, and the text after it. The first argument bounds the length of
what is read, the second says how many arrays and objects may still stand in one another. -/
def value? : Nat → Nat → Text → Option (Json × Text)
  | 0, _, _ => none
  | n + 1, room, t =>
    match skipSpace t with
    | [] => none
    | b :: rest =>
      if b = 34 then (string? rest).map fun (s, rest) => (.string s, rest)
      else if b = 91 then
        if room = 0 then none
        else match skipSpace rest with
          | 93 :: rest => some (.array [], rest)
          | _ => (elements? n (room - 1) rest).map fun (es, rest) => (.array es, rest)
      else if b = 123 then
        if room = 0 then none
        else match skipSpace rest with
          | 125 :: rest => some (.object [], rest)
          | _ => (members? n (room - 1) rest).map fun (ms, rest) => (.object ms, rest)
      else if b = 110 then (Text.dropStart? (bytes "ull") rest).map fun rest => (.null, rest)
      else if b = 116 then (Text.dropStart? (bytes "rue") rest).map fun rest => (.bool true, rest)
      else if b = 102 then (Text.dropStart? (bytes "alse") rest).map fun rest => (.bool false, rest)
      else (number? (b :: rest)).map fun (l, rest) => (.number l, rest)

/-- The elements of an array up to its closing bracket, at least one. -/
def elements? : Nat → Nat → Text → Option (List Json × Text)
  | 0, _, _ => none
  | n + 1, room, t => do
    let (e, t) ← value? n room t
    match skipSpace t with
    | 44 :: t =>
      let (es, t) ← elements? n room t
      return (e :: es, t)
    | 93 :: t => return ([e], t)
    | _ => none

/-- The members of an object up to its closing brace, at least one. -/
def members? : Nat → Nat → Text → Option (List (Text × Json) × Text)
  | 0, _, _ => none
  | n + 1, room, t =>
    match skipSpace t with
    | 34 :: t => do
      let (name, t) ← string? t
      match skipSpace t with
      | 58 :: t =>
        let (v, t) ← value? n room t
        match skipSpace t with
        | 44 :: t =>
          let (ms, t) ← members? n room t
          return ((name, v) :: ms, t)
        | 125 :: t => return ([(name, v)], t)
        | _ => none
      | _ => none
    | _ => none

end

/-- The greatest number of arrays and objects that may stand in one another. -/
def depthLimit : Nat := 10000

/-- The value that a whole text says. Values that are nested too deeply are refused. -/
def parse? (t : Text) : Option Json := do
  let (j, rest) ← value? (t.length + 1) depthLimit t
  if (skipSpace rest).isEmpty then some j else none

end Mycel.Json
