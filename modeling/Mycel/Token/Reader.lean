import Mycel.Token.Scan

/-!
# Reading tokens one at a time

A reader is a cursor that can be asked for its next token without moving on. A token that was looked
at is remembered; a fault is not, and is found anew each time.
-/

namespace Mycel

/-- A cursor and the token that was looked at but not yet taken. -/
structure Reader where
  cursor : Cursor
  peeked : Option Token
  deriving DecidableEq, Repr

namespace Reader

/-- A reader at the start of a source. -/
def ofSource (source : Text) : Reader := ⟨Cursor.ofSource source, none⟩

/-- Takes a token from the cursor, whether or not one is remembered. -/
def scan (r : Reader) : Except Error Token × Reader :=
  let (result, cursor) := r.cursor.scan
  (result, { r with cursor })

/-- The next token, which stays the next one. -/
def peek (r : Reader) : Except Error Token × Reader :=
  match r.peeked with
  | some token => (.ok token, r)
  | none =>
    match r.cursor.scan with
    | (.ok token, cursor) => (.ok token, ⟨cursor, some token⟩)
    | (.error e, cursor) => (.error e, ⟨cursor, none⟩)

/-- The next token, which is used up. -/
def next (r : Reader) : Except Error Token × Reader :=
  match r.peeked with
  | some token => (.ok token, { r with peeked := none })
  | none => r.scan

/-- Whether the next token is the end of the input. -/
def atEnd (r : Reader) : Except Error Bool × Reader :=
  let (result, r) := r.peek
  (result.map fun token => token.lexeme == .endOfInput, r)

end Reader

end Mycel
