import Mycel.Yaml.Token

/-!
# YAML properties and directives

A name after an ampersand or an asterisk is an anchor or refers to one. A tag has a handle and a
suffix. Directives say the version of YAML and what handles stand for.
-/

namespace Mycel.Yaml.Property

/-- The name at a cursor, and what follows it. -/
def name (c : Cursor) : List Char × Cursor :=
  let n := c.rest.takeWhile isNameChar
  (n, c.skip n.length)

/-- The name of an anchor after its mark. -/
def anchor? (c : Cursor) : Option (Text × Cursor) :=
  let (n, c) := name c
  let ends := atGap c.rest || (c.head?.map "?:,]\x7d%@\x60".toList.contains).getD false
  if n.isEmpty || !ends then none else some (encode n, c)

/-- Whether a character can stand in the suffix of a tag. -/
def isTagChar (ch : Char) : Bool := isNameChar ch || ";/?:@&=+$,.!~*'()[]".toList.contains ch

/-- The suffix of a tag at the front of characters, and its length there. A percent sign and two
hexadecimal digits give a byte. -/
def suffix? : List Char → Option (Text × Nat)
  | '%' :: a :: b :: rest => do
    let high ← hexValue? a
    let low ← hexValue? b
    let (t, width) ← suffix? rest
    return ((16 * high + low).toUInt8 :: t, width + 3)
  | ch :: rest =>
    if ch == '%' then none
    else if !isTagChar ch then some ([], 0)
    else do
      let (t, width) ← suffix? rest
      return (Utf8.encode ch.toNat ++ t, width + 1)
  | [] => some ([], 0)

/-- The suffix of a tag at a cursor, which must not be empty after an empty `start`. -/
def suffixAt? (start : Text) (c : Cursor) : Option (Text × Cursor) := do
  let (t, width) ← suffix? c.rest
  if (start.isEmpty && width = 0) || !Utf8.isValid t then none
  return (start.drop 1 ++ t, c.skip width)

/-- The handle of a tag: an exclamation mark, a name, and maybe another mark. -/
def handle (c : Cursor) : Text × Cursor :=
  let (n, c) := name (c.skip 1)
  if c.isAt '!' then (33 :: encode n ++ [33], c.skip 1) else (33 :: encode n, c)

/-- Whether a text is a handle that ends in a mark of its own. -/
def isNamedHandle (t : Text) : Bool := t.length > 1 && Text.endsWith t [33]

/-- The handle and the suffix of a tag, from its first mark on. A mark alone is a suffix. -/
def tagParts? (c : Cursor) : Option (Text × Text × Cursor) :=
  if c.rest.take 2 == ['!', '<'] then do
    let (suffix, c) ← suffixAt? [] (c.skip 2)
    if c.isAt '>' then some ([], suffix, c.skip 1) else none
  else
    let (h, c) := handle c
    if isNamedHandle h then (suffixAt? [] c).map fun (suffix, c) => (h, suffix, c)
    else (suffixAt? h c).map fun (suffix, c) =>
      if suffix.isEmpty then ([], [33], c) else ([33], suffix, c)

/-- A tag, from its first mark on. -/
def tag? (c : Cursor) : Option (Token × Cursor) := do
  let (handle, suffix, c) ← tagParts? c
  if atGap c.rest then some (.tag handle suffix, c) else none

/-- A number of one or two digits. -/
def number? (c : Cursor) : Option (Nat × Cursor) :=
  let digits := c.rest.takeWhile Char.isDigit
  if digits.isEmpty || digits.length > 2 then none
  else some (digits.foldl (fun n d => 10 * n + (d.toNat - 48)) 0, c.skip digits.length)

/-- The end of a line on which nothing but a comment may follow, and the next line. -/
def lineEnd? (c : Cursor) : Option Cursor :=
  let c := c.skipWhile isBlank
  let c := if c.isAt '#' then c.skipLine else c
  match c.takeBreak? with
  | some (_, c) => some c
  | none => if c.rest.isEmpty then some c else none

/-- What a directive for the version says. -/
def version? (c : Cursor) : Option (Token × Cursor) := do
  let (major, c) ← number? (c.skipWhile isBlank)
  if !c.isAt '.' then none
  let (minor, c) ← number? (c.skip 1)
  return (.version major minor, c)

/-- What a directive for a handle says. -/
def tagHandle? (c : Cursor) : Option (Token × Cursor) := do
  let c := c.skipWhile isBlank
  if !c.isAt '!' then none
  let (h, c) := handle c
  if !(Text.endsWith h [33] && (c.head?.map isBlank).getD false) then none
  let (meaning, c) ← suffixAt? [] (c.skipWhile isBlank)
  if atGap c.rest then some (.tagHandle h meaning, c) else none

/-- A directive after its percent sign, and the next line. -/
def directive? (c : Cursor) : Option (Token × Cursor) := do
  let (n, c) := name c
  if !atGap c.rest then none
  let (token, c) ←
    if n == "YAML".toList then version? c
    else if n == "TAG".toList then tagHandle? c
    else none
  return (token, ← lineEnd? c)

end Mycel.Yaml.Property
