import Mycel.Yaml.Cursor

/-!
# White space in scalars

Where a scalar goes on over the end of a line, the line end is a space, and every further one a line
feed. Blanks around line ends do not count.
-/

namespace Mycel.Yaml

/-- White space between two words of a scalar. -/
structure Spacing where
  /-- The blanks before the first line end. -/
  blanks : List Char := []
  /-- The line ends. -/
  breaks : List Char := []
  /-- Whether an escape took away a line end in front of this. -/
  isJoined : Bool := false

namespace Spacing

/-- Whether a new line has begun. -/
def hasBreak (s : Spacing) : Bool := s.isJoined || !s.breaks.isEmpty

/-- What a first line end and the ones after it stand for. -/
def foldBreaks (first : Char) (more : List Char) : List Char :=
  if first ≠ '\n' then first :: more else if more.isEmpty then [' '] else more

/-- What the white space stands for. -/
def fold (s : Spacing) : List Char :=
  if s.isJoined then s.breaks
  else match s.breaks with
    | [] => s.blanks
    | first :: more => foldBreaks first more

/-- The white space at a cursor, after some that is known already. There is none to be had if a tab
stands before the column `indent` of a new line. The second argument bounds its length. -/
def take? (indent : Int) : Nat → Spacing → Cursor → Option (Spacing × Cursor)
  | 0, _, _ => none
  | n + 1, s, c =>
    match c.takeBreak? with
    | some (b, c) => take? indent n { s with breaks := s.breaks ++ [b] } c
    | none =>
      match c.rest with
      | [] => some (s, c)
      | ch :: _ =>
        if !isBlank ch then some (s, c)
        else if !s.hasBreak then take? indent n { s with blanks := s.blanks ++ [ch] } (c.skip 1)
        else if ch == '\t' && c.column < indent then none
        else take? indent n s (c.skip 1)

end Spacing

end Mycel.Yaml
