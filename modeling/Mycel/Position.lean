import Mycel.Text.Basic

/-!
# Positions

A position is a line and a column, both counted from one; a column counts bytes. Line zero means
that there is no position.
-/

namespace Mycel

/-- A place in a source. -/
structure Pos where
  line : Int
  column : Int
  deriving DecidableEq, Repr, Inhabited

namespace Pos

/-- The place of what has no place. -/
def none : Pos := ⟨0, 0⟩

/-- Where a source begins. -/
def start : Pos := ⟨1, 1⟩

/-- The position after a byte at `p`. -/
def next (p : Pos) (b : UInt8) : Pos :=
  if b = Text.newline then ⟨p.line + 1, 1⟩ else ⟨p.line, p.column + 1⟩

/-- The position after the bytes of `t`, the first of which is at `p`. -/
def after (p : Pos) (t : Text) : Pos := t.foldl next p

/-- Line and column with a colon between them. -/
def render (p : Pos) : Text := Text.ofInt p.line ++ 58 :: Text.ofInt p.column

end Pos

end Mycel
