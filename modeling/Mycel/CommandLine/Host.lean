import Mycel.Decimal.Whole

/-!
# Hosts

A host is an address of four bytes or of eight groups of two bytes, or a name. Groups are
hexadecimal with colons between them; two colons stand for as many zeros as are missing, and the
last two groups may be written as four bytes.
-/

namespace Mycel

/-- A host in an address to listen on. -/
inductive Host where
  /-- An address of four bytes. -/
  | short (octets : List Nat)
  /-- An address of eight groups. -/
  | long (groups : List Nat)
  | name (t : Text)
  deriving DecidableEq, Repr

namespace Host

/-- A byte in decimal, without zeros in front. -/
def octet? (t : Text) : Option Nat := do
  if t.length > 3 || (t.length > 1 && t.head? == some 48) then none
  let n ← Decimal.ofDigits? 10 t
  if n < 256 then some n else none

/-- Four bytes with dots between them. -/
def octets? (t : Text) : Option (List Nat) := do
  let parts := t.splitOn 46
  if parts.length = 4 then parts.mapM octet? else none

/-- The groups that a part between colons stands for. Four bytes are two groups. -/
def groups? (part : Text) : Option (List Nat) :=
  if part.contains 46 then (octets? part).map fun
    | [a, b, c, d] => [a * 256 + b, c * 256 + d]
    | _ => []
  else if part.length > 4 then none
  else (Decimal.ofDigits? 16 part).map fun n => [n]

/-- Parts between colons with one empty part where zeros are missing at the front, not two. -/
def trimFront? : List Text → Option (List Text)
  | [] :: [] :: rest => some ([] :: rest)
  | [] :: _ => none
  | parts => some parts

/-- The groups on one side of the missing zeros. Four bytes may only come last. -/
def side? (isLast : Bool) (parts : List Text) : Option (List Nat) := do
  let early := if isLast then parts.dropLast else parts
  if early.any (·.contains 46) then none
  return (← parts.mapM groups?).flatten

/-- The eight groups of a long address. -/
def longGroups? (t : Text) : Option (List Nat) := do
  let parts ← trimFront? (t.splitOn 58)
  let parts := (← trimFront? parts.reverse).reverse
  let front := parts.takeWhile fun p => !p.isEmpty
  match parts.drop front.length with
  | [] =>
    let groups ← side? true front
    if groups.length = 8 then some groups else none
  | _ :: back =>
    if back.any (·.isEmpty) then none
    let front ← side? false front
    let back ← side? true back
    let missing := 8 - front.length - back.length
    if missing = 0 then none
    else some (front ++ List.replicate missing 0 ++ back)

/-- A long address, whose zone after a percent sign must not be empty. -/
def long? (t : Text) : Option (List Nat) :=
  let address := t.takeWhile (· != 37)
  if address.length + 1 = t.length then none else longGroups? address

/-- The host that a text says. A long address may hold a short one. -/
def ofText (t : Text) : Host :=
  match t.find? fun b => b == 46 || b == 58 || b == 37 with
  | some 46 => (octets? t).elim (name t) short
  | some 58 =>
    match long? t with
    | some [0, 0, 0, 0, 0, 0xFFFF, a, b] => short [a / 256, a % 256, b / 256, b % 256]
    | some groups => long groups
    | none => name t
  | _ => name t

/-- Whether a name can be looked up: its parts are of letters, digits, dashes and underscores, with
a letter or a dash somewhere. The root of all names is a dot. -/
def isDomainName (t : Text) : Bool :=
  let stem := if t.endsWith [46] then t.dropLast else t
  let isLetter := fun (b : UInt8) => (97 ≤ b && b ≤ 122) || (65 ≤ b && b ≤ 90) || b == 95
  let isPart := fun (p : Text) =>
    0 < p.length && p.length < 64 && p.head? != some 45 && p.getLast? != some 45 &&
      p.all fun b => isLetter b || Decimal.isDigit b || b == 45
  t == [46] || (stem.length < 254 && (stem.splitOn 46).all isPart &&
    stem.any fun b => isLetter b || b == 45)

end Host

end Mycel
