import Mycel.Decimal.Numeral
import Mycel.Fields
import Mycel.Json.Basic
import Mycel.Text.Utf8

/-!
# Fields of JSON objects

Names are compared without regard to the case of letters, and null gives nothing. A whole number is
written without a point or an exponent.
-/

namespace Mycel.Json

/-- A code point in a form that is the same for every way to write an ASCII letter: small, capital,
the long s and the Kelvin sign. Other code points are only ever equal to themselves. -/
def foldPoint (code : Nat) : Nat :=
  if 65 ≤ code ∧ code ≤ 90 then code + 32
  else if code = 0x17F then 115
  else if code = 0x212A then 107
  else code

/-- A name in the form in which names are compared. -/
def fold (name : Text) : Text :=
  (Utf8.pieces name).flatMap fun
    | .point code => Utf8.encode (foldPoint code)
    | .stray b => [b]

/-- A whole number in the range of 64-bit integers. -/
def whole : Json → Reading Int
  | null => some none
  | number l =>
    let digits := match l with
      | 45 :: rest => rest
      | l => l
    if !digits.all Decimal.isDigit then none
    else
      let n : Int := Decimal.digitsValue digits
      let n := if l.head? = some 45 then -n else n
      if Decimal.isWord n then some (some n) else none
  | _ => none

/-- A truth value. -/
def truth : Json → Reading Bool
  | null => some none
  | bool b => some (some b)
  | _ => none

/-- A string. -/
def text : Json → Reading Text
  | null => some none
  | string s => some (some s)
  | _ => none

/-- The members of an object. -/
def sectionMembers : Json → Option (List (Text × Json))
  | null => some []
  | object ms => some ms
  | _ => none

mutual

/-- Whether doubles can hold all numbers in a value. -/
def fitsDoubles : Json → Bool
  | number l => !((Numeral.double? l).getD 0).isInf
  | array es => allFitDoubles es
  | object ms => membersFitDoubles ms
  | _ => true

/-- Whether doubles can hold all numbers in array elements. -/
def allFitDoubles : List Json → Bool
  | [] => true
  | j :: rest => j.fitsDoubles && allFitDoubles rest

/-- Whether doubles can hold all numbers in object members. -/
def membersFitDoubles : List (Text × Json) → Bool
  | [] => true
  | (_, j) :: rest => j.fitsDoubles && membersFitDoubles rest

end

/-- How JSON documents are read. -/
def format : Format Json :=
  { key := fold, members := sectionMembers, whole, truth, text }

end Mycel.Json
