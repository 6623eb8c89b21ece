import Mycel.Yaml.Spacing

/-!
# Plain and quoted YAML scalars

Plain scalars end at a comment, at a colon with a gap after it and, in flow collections, at a mark
of the collection. Apostrophes are doubled between apostrophes; between quotes there are escapes.
-/

namespace Mycel.Yaml

/-! ### Plain scalars -/

/-- The characters that no plain scalar starts with, unless more is known about what follows. -/
def indicators : List Char := "-?:,[]\x7b\x7d#&*!|>'\"%@\x60".toList

/-- Whether a plain scalar starts here. A dash may start one before anything but a blank. -/
def startsPlain (inFlow : Bool) : List Char → Bool
  | [] => false
  | ch :: rest =>
    if ch == '-' then !(rest.head?.map isBlank).getD false
    else if ch == '?' || ch == ':' then !inFlow && !atGap rest
    else !isGap ch && !indicators.contains ch

/-- Whether a character ends plain scalars in flow collections. -/
def endsInFlow (ch : Char) : Bool := ",?[]\x7b\x7d".toList.contains ch

/-- The characters of a plain scalar up to a gap. -/
def plainWord (inFlow : Bool) : List Char → List Char
  | [] => []
  | ch :: rest =>
    if isGap ch || (ch == ':' && atGap rest) || (inFlow && endsInFlow ch) then []
    else ch :: plainWord inFlow rest

/-- A plain scalar as it is found. -/
structure PlainScalar where
  text : List Char := []
  /-- Whether a new line has begun after it. -/
  endsLine : Bool := false
  cursor : Cursor

/-- A plain scalar that goes on after white space, if it does. It stops before the column `indent`
of a new line, unless it is in a flow collection. The third argument bounds its length. -/
def plainFrom? (inFlow : Bool) (indent : Int) : Nat → Spacing → Cursor → Option PlainScalar
  | 0, _, _ => none
  | n + 1, before, c =>
    let c := c.ask Cursor.markWidth
    let word := plainWord inFlow c.rest
    if c.isAtDocumentMark || c.isAt '#' || word.isEmpty then
      some { endsLine := before.hasBreak, cursor := c }
    else
      let c := c.skip word.length
      if c.rest.isEmpty || !atGap c.rest then some { text := before.fold ++ word, cursor := c }
      else do
        let (after, c) ← Spacing.take? indent (n + 1) {} c
        let more ← if !inFlow && c.column < indent then
            some { endsLine := after.hasBreak, cursor := c }
          else plainFrom? inFlow indent n after c
        return { more with text := before.fold ++ word ++ more.text }

/-! ### Quoted scalars -/

/-- The characters that an escape of one letter stands for. -/
def escapes : List (Char × Nat) :=
  [('0', 0), ('a', 7), ('b', 8), ('t', 9), ('\t', 9), ('n', 10), ('v', 11), ('f', 12), ('r', 13),
    ('e', 27), (' ', 32), (quote, 34), (apostrophe, 39), (backslash, 92), ('N', 0x85), ('_', 0xA0),
    ('L', 0x2028), ('P', 0x2029)]

/-- The number of hexadecimal digits after an escape letter. -/
def escapeWidth? (letter : Char) : Option Nat :=
  if letter == 'x' then some 2
  else if letter == 'u' then some 4
  else if letter == 'U' then some 8
  else none

/-- The code point that hexadecimal digits say. -/
def hexPoint? (digits : List Char) : Option Nat := do
  let code ← digits.foldlM (fun n ch => (hexValue? ch).map fun d => 16 * n + d) 0
  if (0xD800 ≤ code ∧ code < 0xE000) ∨ 0x10FFFF < code then none else some code

/-- The character that an escape stands for, and the length of the escape after its backslash. -/
def escape? : List Char → Option (Char × Nat)
  | [] => none
  | letter :: rest =>
    match escapeWidth? letter with
    | some width =>
      if rest.length < width then none
      else (hexPoint? (rest.take width)).map fun code => (Char.ofNat code, width + 1)
    | none =>
      (escapes.find? fun (l, _) => l == letter).map fun (_, code) => (Char.ofNat code, 1)

/-- The characters of a quoted scalar up to a gap or to its end, whether an escape has taken away
the end of a line after them, and what follows. The second argument bounds their number. -/
def quotedWord? (mark : Char) : Nat → Cursor → Option (List Char × Bool × Cursor)
  | 0, _ => none
  | n + 1, c =>
    match c.rest with
    | [] => some ([], false, c)
    | ch :: rest =>
      let followedBy := fun (found : Char) (c : Cursor) => do
        let (more, joined, c) ← quotedWord? mark n c
        return (found :: more, joined, c)
      if isGap ch then some ([], false, c)
      else if ch == mark then
        if mark == apostrophe && rest.head? == some apostrophe then followedBy ch (c.skip 2)
        else some ([], false, c)
      else if mark == quote && ch == backslash then
        match (c.skip 1).takeBreak? with
        | some (_, c) => some ([], true, c)
        | none => do
          let (found, width) ← escape? rest
          followedBy found (c.skip (width + 1))
      else followedBy ch (c.skip 1)

/-- A quoted scalar after its opening mark, and what follows its closing one. The second argument
bounds its length. -/
def quoted? (mark : Char) : Nat → Cursor → Option (List Char × Cursor)
  | 0, _ => none
  | n + 1, c =>
    let c := c.ask Cursor.markWidth
    if c.isAtDocumentMark || c.rest.isEmpty then none
    else do
      let (word, isJoined, c) ← quotedWord? mark (n + 1) c
      if c.isAt mark then return (word, c.skip 1)
      let (gap, c) ← Spacing.take? 0 (n + 1) { isJoined } c
      let (more, c) ← quoted? mark n c
      return (word ++ gap.fold ++ more, c)

end Mycel.Yaml
