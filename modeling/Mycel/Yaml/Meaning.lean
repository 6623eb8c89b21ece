import Mycel.Decimal.Numeral
import Mycel.Text.Base64
import Mycel.Yaml.Basic
import Mycel.Yaml.Timestamp

/-!
# The meaning of YAML scalars

A plain scalar is read by its spelling: as null, a truth value, a number or a text. A quoted one is
a text. A tag of the common schema says what a scalar has to be read as; under any other tag it is a
text.
-/

namespace Mycel.Yaml

/-- What a scalar means. -/
inductive Meaning where
  | null
  | bool (b : Bool)
  | whole (n : Int)
  | number (x : Float)
  /-- A point in time. -/
  | moment
  | text (t : Text)

/-- The spellings that have a meaning of their own. -/
def words : List (List String × Meaning) :=
  [(["", "~", "null", "Null", "NULL"], .null),
   (["true", "True", "TRUE"], .bool true),
   (["false", "False", "FALSE"], .bool false),
   ([".nan", ".NaN", ".NAN"], .number (0 / 0)),
   ([".inf", ".Inf", ".INF", "+.inf", "+.Inf", "+.INF"], .number (1 / 0)),
   (["-.inf", "-.Inf", "-.INF"], .number (-1 / 0))]

/-- The meaning of a numeral, if a double can hold it. -/
def finite? (n : Option Numeral) : Option Meaning := do
  let x := (← n).toFloat .double
  if x.isInf then none else some (.number x)

/-- The meaning of a decimal numeral with a sign. -/
def decimal? (t : Text) : Option Meaning :=
  let (sign, digits) := Decimal.sign t
  finite? (NumeralStyle.decimal.read? (sign < 0) digits)

/-- Whether a whole number without a point has a meaning of its own: it fits into 64 bits, and above
the signed ones only without a sign. -/
def fits (t : Text) (n : Int) : Bool :=
  Decimal.isWord n || (0 ≤ n && n < 2 * Decimal.wordBound && !Text.startsWith t [43])

/-- The meaning of binary or octal digits with a sign after the mark of the base. -/
def signedDigits? (t : Text) : Option Meaning := do
  let (base, rest) ← match t with
    | 48 :: 98 :: rest => some (2, rest)
    | 48 :: 111 :: rest => some (8, rest)
    | _ => none
  let (sign, digits) := Decimal.sign rest
  let n := sign * (← Decimal.ofDigits? base digits)
  if Decimal.isWord n then some (.whole n) else none

/-- The meaning of a numeral that starts with a sign or a digit. Underscores do not count. -/
def numeral? (t : Text) : Option Meaning :=
  let plain := t.filter (· != 95)
  let whole := (Decimal.whole? plain).bind fun n => if fits plain n then some (.whole n) else none
  whole.orElse fun _ => (decimal? plain).orElse fun _ => signedDigits? plain

/-- The meaning of a plain scalar. -/
def plainMeaning (t : Text) : Meaning :=
  match words.find? fun (spellings, _) => spellings.any fun s => bytes s == t with
  | some (_, m) => m
  | none =>
    match t with
    | 46 :: _ => (finite? (Numeral.ofText? t)).getD (.text t)
    | b :: _ =>
      if Decimal.isDigit b || b = 43 || b = 45 then (numeral? t).getD (.text t) else .text t
    | [] => .null

/-- What a scalar means that is to be read by its spelling under a tag, if that fits. A whole number
is a number too. -/
def spelledMeaning? (tag t : Text) : Option Meaning :=
  match plainMeaning t with
  | .null => if tag == bytes "!!null" then some .null else none
  | .bool b => if tag == bytes "!!bool" then some (.bool b) else none
  | .whole n =>
    if tag == bytes "!!int" then some (.whole n)
    else if tag == bytes "!!float" && Decimal.isWord n then
      some (.number (FloatFormat.double.ofInt n))
    else none
  | .number x => if tag == bytes "!!float" then some (.number x) else none
  | _ => none

/-- The tags under which the spelling of a scalar says what it means. -/
def spelledTags : List String := ["!!null", "!!bool", "!!int", "!!float"]

/-- What a scalar means under a tag, if that fits. -/
def taggedMeaning? (tag t : Text) : Option Meaning :=
  if spelledTags.any fun s => bytes s == tag then spelledMeaning? tag t
  else if tag == bytes "!!timestamp" then (if Timestamp.isWritten t then some .moment else none)
  else if tag == bytes "!!binary" then (Base64.decode? t).map .text
  else some (.text t)

/-- What a scalar means. -/
def meaning? (isPlain : Bool) (tag : Option Text) (t : Text) : Option Meaning :=
  match tag with
  | some tag => taggedMeaning? tag t
  | none => some (if isPlain then plainMeaning t else .text t)

/-- The words for truth that only a field of truth values takes. -/
def truthWord? (t : Text) : Option Bool :=
  let is := fun (words : List String) => words.any fun s => bytes s == t
  if is ["y", "Y", "yes", "on"] then some true
  else if is ["n", "N", "no", "off"] then some false
  else none

end Mycel.Yaml
