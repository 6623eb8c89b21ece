import Mycel.Text.Basic

/-!
# Reading lines

Lines are read through a buffer. A line that does not fit into it is read in parts.
-/

namespace Mycel

/-- What reading a line gives. -/
structure LineRead where
  /-- The line without its end, or the part of it that was read. -/
  content : Text
  /-- Whether the line goes on. -/
  isPart : Bool
  /-- What is left to read. -/
  rest : Text

namespace LineRead

/-- The number of bytes in the buffer. -/
def bufferSize : Nat := 4096

/-- A line without the carriage return before its line feed. -/
def dropReturn (line : Text) : Text := if line.endsWith [13] then line.dropLast else line

/-- Reads a line, if there is one. The last line may lack its end. A part of a line leaves a
carriage return at its end to the next part. -/
def next? (t : Text) : Option LineRead :=
  if t.isEmpty then none
  else
    let buffer := t.take bufferSize
    if buffer.contains Text.newline then
      let line := t.takeWhile (· != Text.newline)
      some ⟨dropReturn line, false, t.drop (line.length + 1)⟩
    else if buffer.length = bufferSize then
      let part := dropReturn buffer
      some ⟨part, true, t.drop part.length⟩
    else some ⟨t, false, []⟩

end LineRead

end Mycel
