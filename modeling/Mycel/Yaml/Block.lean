import Mycel.Yaml.Spacing

/-!
# YAML block scalars

A block scalar is the lines that are indented deeply enough below its header. In a literal one the
line ends stay; in a folded one they are folded, except around lines that start with a blank. The
header says what becomes of the line ends at the end.
-/

namespace Mycel.Yaml

/-- What becomes of the line ends at the end of a block scalar. -/
inductive Chomping where
  /-- One of them stays. -/
  | clip
  /-- None of them stays. -/
  | strip
  /-- All of them stay. -/
  | keep
  deriving DecidableEq, Repr

namespace Block

/-- The line ends that stay at the end, of the first one and the others. -/
def chomp (first others : List Char) : Chomping → List Char
  | .clip => first
  | .strip => []
  | .keep => first ++ others

/-- The chomping that a sign says. -/
def chomping? (ch : Char) : Option Chomping :=
  if ch == '+' then some .keep else if ch == '-' then some .strip else none

/-- A header. -/
structure Header where
  chomping : Chomping := .clip
  /-- By how much the lines are indented, or zero if the first line says so. -/
  increment : Nat := 0
  /-- The number of characters in the header. -/
  width : Nat := 0

/-- The header after the mark of a block scalar: a sign and a digit other than zero, in either
order, or less than that. -/
def header? : List Char → Option Header
  | [] => some {}
  | a :: rest =>
    let increment? := fun (ch : Char) => if ch == '0' then none else some (ch.toNat - 48)
    match chomping? a with
    | some chomping =>
      match rest with
      | b :: _ =>
        if b.isDigit then (increment? b).map fun n => ⟨chomping, n, 2⟩ else some ⟨chomping, 0, 1⟩
      | [] => some ⟨chomping, 0, 1⟩
    | none =>
      if !a.isDigit then some {}
      else (increment? a).map fun n =>
        match rest.head?.bind chomping? with
        | some chomping => ⟨chomping, n, 2⟩
        | none => ⟨.clip, n, 1⟩

/-- Skips spaces up to the column `indent`, or all of them if that is zero. -/
def skipIndent (indent : Nat) (c : Cursor) : Cursor :=
  let spaces := (c.rest.takeWhile (· == ' ')).length
  c.skip (if indent = 0 then spaces else min spaces (indent - c.column))

/-- The line ends of lines that say nothing, and the first place that does. A tab must not stand in
the indentation. The second argument bounds the number of lines, the third is the widest indentation
so far. -/
def breaks? (indent : Nat) : Nat → Nat → Cursor → Option (List Char × Nat × Cursor)
  | 0, _, _ => none
  | n + 1, widest, c =>
    let c := skipIndent indent c
    let widest := max widest c.column
    if (indent = 0 || c.column < indent) && c.isAt '\t' then none
    else match c.takeBreak? with
      | none => some ([], widest, c)
      | some (b, c) => do
        let (more, widest, c) ← breaks? indent n widest c
        return (b :: more, widest, c)

/-- How two lines are joined, given the end of the first and the empty lines between them. -/
def joint (isLiteral aroundBlank : Bool) (lineEnd empty : List Char) : List Char :=
  if !isLiteral && !aroundBlank && lineEnd.head? == some '\n' then
    if empty.isEmpty then [' '] else empty
  else lineEnd ++ empty

/-- The lines of a block scalar after a line end and empty lines, the line ends after the last of
them, and what follows. The third argument bounds the number of lines. -/
def lines? (isLiteral : Bool) (indent : Nat) :
    Nat → Bool → List Char → List Char → Cursor →
      Option (List Char × List Char × List Char × Cursor)
  | 0, _, _, _, _ => none
  | n + 1, afterBlank, lineEnd, empty, c =>
    if c.column ≠ indent || c.rest.isEmpty then some ([], lineEnd, empty, c)
    else do
      let startsBlank := (c.head?.map isBlank).getD false
      let between := joint isLiteral (afterBlank || startsBlank) lineEnd empty
      let line := c.rest.takeWhile fun ch => !isBreak ch
      let c := c.skip line.length
      let (lineEnd, c) := match c.takeBreak? with
        | some (b, c) => ([b], c)
        | none => ([], c)
      let (empty, _, c) ← breaks? indent (n + 1) 0 c
      let (more, lineEnd, empty, c) ← lines? isLiteral indent n startsBlank lineEnd empty c
      return (between ++ line ++ more, lineEnd, empty, c)

/-- A block scalar after its mark, and what follows it. Its lines have to be indented more than
`parent`. The third argument bounds its length. -/
def read? (isLiteral : Bool) (parent : Int) (bound : Nat) (c : Cursor) :
    Option (List Char × Cursor) := do
  let header ← header? c.rest
  let c := (c.skip header.width).skipWhile isBlank
  let c := if c.isAt '#' then c.skipLine else c
  let c ← match c.takeBreak? with
    | some (_, c) => some c
    | none => if c.rest.isEmpty then some c else none
  let indent := if header.increment = 0 then 0 else (max parent 0).toNat + header.increment
  let (empty, widest, c) ← breaks? indent bound 0 c
  let indent := if indent = 0 then max (max widest (parent + 1).toNat) 1 else indent
  let (text, lineEnd, empty, c) ← lines? isLiteral indent bound false [] empty c
  return (text ++ chomp lineEnd empty header.chomping, c)

end Block

end Mycel.Yaml
