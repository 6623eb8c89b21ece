import Mycel.Decimal.Numeral
import Mycel.Fields
import Mycel.Text.Unquoted

/-!
# BCL documents

A document is a list of assignments `name = value` and blocks `name { ... }`, of which the last one
with a name counts. Values are decimal numbers, with minus signs in front of them, truth values,
strings in double quotes, lists and blocks. Blanks, line ends, commas and comments divide them.
-/

namespace Mycel

/-- A BCL value. -/
inductive Bcl where
  | whole (n : Int)
  /-- A number with a point. -/
  | fraction (x : Float)
  | bool (b : Bool)
  | string (t : Text)
  | list (items : List Bcl)
  | block (entries : List (Text × Bcl))
  deriving Inhabited

namespace Bcl

/-- Whether a byte divides the parts of a document. -/
def isGap (b : UInt8) : Bool := b == 32 || (9 ≤ b && b ≤ 13) || b == 44 || b == 59

/-- Whether a byte can stand in a name. -/
def isWordByte (b : UInt8) : Bool :=
  (97 ≤ b && b ≤ 122) || (65 ≤ b && b ≤ 90) || (48 ≤ b && b ≤ 57) || b == 95 || b == 45 || b == 46

/-- Skips gaps and comments, which go from a number sign or two slashes to the end of the line. The
first argument bounds their number. -/
def skipWithin : Nat → Text → Text
  | 0, t => t
  | n + 1, t =>
    let t := t.dropWhile isGap
    if Text.startsWith t [35] || Text.startsWith t [47, 47] then
      skipWithin n (t.dropWhile (· != 10))
    else t

/-- Skips gaps and comments. -/
def skip (t : Text) : Text := skipWithin (t.length + 1) t

/-- The value of a word, if it is one. -/
def word? (t : Text) : Option Bcl :=
  if t == bytes "true" then some (bool true)
  else if t == bytes "false" then some (bool false)
  else none

/-- The exponent at the front of a text, or nothing if there is none. -/
def exponent : Text → Text
  | mark :: rest =>
    let (signs, rest) := match rest with
      | b :: r => if b = 43 ∨ b = 45 then ([b], r) else ([], b :: r)
      | [] => ([], [])
    let digits := rest.takeWhile Decimal.isDigit
    if Text.lowerByte mark = 101 ∧ !digits.isEmpty then mark :: signs ++ digits else []
  | [] => []

/-- A number, and the text after it. Only a number with a point can have an exponent. -/
def number? (t : Text) : Option (Bcl × Text) :=
  let digits := t.takeWhile Decimal.isDigit
  match t.dropWhile Decimal.isDigit with
  | 46 :: rest => do
    let places := rest.takeWhile Decimal.isDigit
    let rest := rest.dropWhile Decimal.isDigit
    let e := exponent rest
    let x ← Numeral.double? (digits ++ 46 :: places ++ e)
    if x.isInf then none else some (fraction x, rest.drop e.length)
  | rest => if digits.isEmpty then none else some (whole (Decimal.digitsValue digits), rest)

/-- The value with a minus sign in front, if it is a number. -/
def negate? : Bcl → Option Bcl
  | whole n => some (whole (-n))
  | fraction x => some (fraction (-x))
  | _ => none

/-- The text between two backticks, without carriage returns. -/
def rawText? (t : Text) : Option Text :=
  match t.reverse with
  | 96 :: inner =>
    if inner.contains 96 then none else some (inner.reverse.filter (· != 13))
  | _ => none

/-- What a string says. One that starts with a quote or a backtick has to be quoted in its turn, and
says what stands between the quotes. -/
def content? : Text → Option Text
  | 34 :: rest => (Quoted.read? rest).bind fun (t, after) => if after.isEmpty then some t else none
  | 96 :: rest => rawText? rest
  | t => some t

mutual

/-- A value, and the text after it. -/
def value? : Nat → Text → Option (Bcl × Text)
  | 0, _ => none
  | n + 1, t =>
    match t with
    | 34 :: rest => do
      let (s, rest) ← Quoted.read? rest
      return (string (← content? s), rest)
    | 45 :: rest => do
      let (v, rest) ← value? n (skip rest)
      return (← v.negate?, rest)
    | 123 :: rest => (entries? n true (skip rest)).map fun (es, rest) => (block es, rest)
    | 91 :: rest => (items? n (skip rest)).map fun (is, rest) => (list is, rest)
    | t =>
      match number? t with
      | some number => some number
      | none => (word? (t.takeWhile isWordByte)).map fun v => (v, t.dropWhile isWordByte)

/-- The items of a list up to its closing bracket. -/
def items? : Nat → Text → Option (List Bcl × Text)
  | 0, _ => none
  | n + 1, t =>
    match t with
    | 93 :: rest => some ([], rest)
    | t => do
      let (v, t) ← value? n t
      let (vs, t) ← items? n (skip t)
      return (v :: vs, t)

/-- The entries of a document, or of a block up to its closing brace. -/
def entries? : Nat → Bool → Text → Option (List (Text × Bcl) × Text)
  | 0, _, _ => none
  | n + 1, inBlock, t =>
    match t with
    | [] => if inBlock then none else some ([], [])
    | 125 :: rest => if inBlock then some ([], rest) else none
    | t => do
      let (name, t) ← match t with
        | 34 :: rest => Quoted.read? rest
        | t =>
          let w := t.takeWhile isWordByte
          if w.isEmpty then none else some (w, t.dropWhile isWordByte)
      let (v, t) ← match skip t with
        | 61 :: rest => value? n (skip rest)
        | 123 :: rest => value? n (123 :: rest)
        | _ => none
      let (es, t) ← entries? n inBlock (skip t)
      return ((name, v) :: es, t)

end

/-- The value that a document says. -/
def parse? (t : Text) : Option Bcl :=
  (entries? (2 * t.length + 2) false (skip t)).map fun (es, _) => block es

/-- The last of several entries with one name. -/
def lasts : List (Text × Bcl) → List (Text × Bcl)
  | [] => []
  | (name, v) :: rest =>
    if rest.any fun (other, _) => other == name then lasts rest else (name, v) :: lasts rest

/-- How BCL documents are read. Places after the point are cut off where a whole number is asked
for. -/
def format : Format Bcl :=
  { key := id
    members := fun
      | block es => some (lasts es)
      | _ => none
    whole := fun
      | whole n => if Decimal.isWord n then some (some n) else none
      | fraction x => some (some (Decimal.truncate x))
      | _ => none
    truth := fun
      | bool b => some (some b)
      | _ => none
    text := fun
      | string t => some (some t)
      | _ => none }

end Bcl

end Mycel
