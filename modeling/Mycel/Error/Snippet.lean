import Mycel.Error.Basic

/-!
# Snippets

An error with a position is shown with the line that it is about, the lines before and after it,
and a caret under the column.
-/

namespace Mycel.Snippet

/-- The number of the line to point at: the last one if the position is beyond it. -/
def lineNumber (pos : Pos) (lines : List Text) : Nat := min pos.line.toNat lines.length

/-- The column to point at, no further than one byte after the end of the line. -/
def columnNumber (pos : Pos) (line : Text) : Nat := max 1 (min pos.column (line.length + 1)).toNat

/-- A line of source after its number. -/
def numbered (width n : Nat) (line : Text) : Text :=
  bytes "  " ++ Text.padLeft width (Text.ofNat n) ++ bytes " | " ++ line

/-- The line with the caret under column `column`. -/
def caret (width column : Nat) : Text :=
  bytes "  " ++ Text.spaces width ++ bytes " | " ++ Text.spaces (column - 1) ++ bytes "^"

/-- The lines of a snippet: those of the numbers around `pos` that exist, and the caret. -/
def rows (pos : Pos) (source : Text) : List Text :=
  let lines := source.lines
  let line := lineNumber pos lines
  let width := (Text.ofNat (line + 1)).length
  [line - 1, line, line + 1].flatMap fun n =>
    if n = 0 then []
    else match lines.drop (n - 1) with
      | [] => []
      | shown :: _ =>
        numbered width n shown ::
          if n = line then [caret width (columnNumber pos shown)] else []

end Mycel.Snippet

namespace Mycel.Error

/-- The error for a reader of `source`: with a snippet if its first diagnostic has a position. -/
def render (e : Error) (source : Text) : Text :=
  match e.first? with
  | none => e.text
  | some (d, chain) =>
    if d.pos.line ≤ 0 ∨ source = [] then e.text
    else chain.text ++ bytes "\n\n" ++ Text.join [Text.newline] (Snippet.rows d.pos source)

end Mycel.Error
