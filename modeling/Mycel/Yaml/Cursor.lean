import Mycel.Yaml.Character

/-!
# Places in a YAML text

A cursor is the rest of a text and the place where it starts. Comments go from a number sign to the
end of the line. If a text begins with a byte order mark, the first character of every line between
tokens is taken for one too, until more characters are asked for than were taken in at first.
-/

namespace Mycel.Yaml

/-- The rest of a text, and the place where it starts. -/
structure Cursor where
  rest : List Char
  /-- The number of characters before the rest. -/
  index : Nat := 0
  line : Nat := 0
  column : Nat := 0
  /-- Whether a line ended before the rest, and only blanks came after it. -/
  isFresh : Bool := false
  /-- The number of characters that were taken in at first. -/
  taken : Nat := 0
  /-- Whether lines begin with a byte order mark. -/
  hasMarks : Bool := false

namespace Cursor

/-- The start of a text, of which some characters are taken in. -/
def ofCharacters (cs : List Char) (taken : Nat) : Cursor :=
  { rest := cs, taken, hasMarks := cs.head? == some byteOrderMark }

/-- Asks for the next `n` characters. -/
def ask (c : Cursor) (n : Nat) : Cursor :=
  { c with hasMarks := c.hasMarks && c.index + n ≤ c.taken }

/-- The cursor `n` characters further on in its line. -/
def skip (c : Cursor) (n : Nat) : Cursor :=
  { c with
    rest := c.rest.drop n
    index := c.index + n
    column := c.column + n
    isFresh := c.isFresh && (c.rest.take n).all isBlank }

/-- Skips characters of a line that satisfy `p`. -/
def skipWhile (p : Char → Bool) (c : Cursor) : Cursor := c.skip (c.rest.takeWhile p).length

/-- The start of the line after a break of some characters. -/
def afterBreak (c : Cursor) (width : Nat) : Cursor :=
  { c with
    rest := c.rest.drop width
    index := c.index + width
    line := c.line + 1
    column := 0
    isFresh := true }

/-- The break at the cursor, which stands for a line feed unless it is kept, and the next line. -/
def takeBreak? (c : Cursor) : Option (Char × Cursor) :=
  match c.rest with
  | [] => none
  | '\r' :: '\n' :: _ => some ('\n', c.afterBreak 2)
  | b :: _ =>
    if isBreak b then some (if isKeptBreak b then b else '\n', c.afterBreak 1) else none

/-- The character at the cursor. -/
def head? (c : Cursor) : Option Char := c.rest.head?

/-- Whether a character is at the cursor. -/
def isAt (c : Cursor) (ch : Char) : Bool := c.head? == some ch

/-- Whether three equal characters make up a line or the first word of one. -/
def isAtMark (c : Cursor) (ch : Char) : Bool :=
  c.column == 0 && c.rest.take 3 == [ch, ch, ch] && atGap (c.rest.drop 3)

/-- The number of characters that show whether a line starts or ends a document. -/
def markWidth : Nat := 4

/-- Whether a line starts or ends a document. -/
def isAtDocumentMark (c : Cursor) : Bool := c.isAtMark '-' || c.isAtMark '.'

/-- Skips the byte order mark of a line. -/
def skipMark (c : Cursor) : Cursor :=
  let c := c.ask 1
  if c.column = 0 && c.hasMarks then c.skip 1 else c

/-- Skips the rest of a line, but not its end. -/
def skipLine (c : Cursor) : Cursor := c.skipWhile fun ch => !isBreak ch

/-- Skips blanks, carriage returns and line feeds. The first argument bounds their number. -/
def skipWhite : Nat → Cursor → Cursor
  | 0, c => c
  | n + 1, c =>
    match c.rest with
    | [] => c
    | ch :: _ =>
      if isBlank ch then skipWhite n (c.skip 1)
      else if ch == '\n' || ch == '\r' then
        match c.takeBreak? with
        | some (_, c) => skipWhite n c
        | none => c
      else c

/-- How far a comment may be from the end of a line for the two to belong together. -/
def commentReach : Nat := 511

/-- Skips a comment, and comments on lines after it. Whatever white space is between them does not
count as indentation. The first argument bounds their number. -/
def skipComments : Nat → Cursor → Cursor
  | 0, c => c
  | n + 1, c =>
    let c := c.skipLine
    let gap := (c.rest.takeWhile fun ch => isBlank ch || ch == '\n' || ch == '\r').length
    if gap ≤ commentReach && (c.rest.drop gap).head? == some '#' then
      skipComments n (c.skipWhite (gap + 1))
    else c

/-- Skips a comment after blanks on a line that says something. -/
def skipLineComment (c : Cursor) : Cursor :=
  let gap := (c.rest.takeWhile isBlank).length
  if !c.isFresh && gap ≤ commentReach && (c.rest.drop gap).head? == some '#' then c.skipLine else c

end Cursor

end Mycel.Yaml
