import Mycel.Decimal.Reading
import Mycel.Error.Fault
import Mycel.Token.Basic

/-!
# Scanning

A cursor is the rest of a source and the position where it starts. `Cursor.scan` takes the next
token off it, or finds a fault. A byte that starts no token is left in place, so that it is found
again; a malformed number is passed over, and so is everything after an opening quote that is never
closed.

Each class of lexeme is given by how many bytes of the rest it takes, which is as many as possible.
-/

namespace Mycel

/-- The rest of a source, and where it starts. -/
structure Cursor where
  rest : Text
  pos : Pos
  deriving DecidableEq, Repr

namespace Scan

/-- The number of bytes before the next token: blanks and comments. -/
def gapLength (inComment : Bool) : Text → Nat
  | [] => 0
  | b :: rest =>
    if inComment then gapLength (b != Text.newline) rest + 1
    else if isBlank b then gapLength false rest + 1
    else if b == commentSign then gapLength true rest + 1
    else 0

/-- The number of bytes of a number: digits, and at most one point. -/
def numberLength (pointSeen : Bool) : Text → Nat
  | [] => 0
  | b :: rest =>
    if Decimal.isDigit b then numberLength pointSeen rest + 1
    else if b == 46 && !pointSeen then numberLength true rest + 1
    else 0

/-- The bytes of a string after its opening quote, and the number of bytes up to and with the
closing one. A backslash is dropped and the byte after it kept. -/
def stringBody? (escaped : Bool) : Text → Option (Text × Nat)
  | [] => none
  | b :: rest =>
    if escaped then (stringBody? false rest).map fun (value, n) => (b :: value, n + 1)
    else if b == escapeSign then (stringBody? true rest).map fun (value, n) => (value, n + 1)
    else if b == quoteSign then some ([], 1)
    else (stringBody? false rest).map fun (value, n) => (b :: value, n + 1)

/-- The lexeme of a word. -/
def word (t : Text) : Lexeme :=
  match Keyword.ofSpelling? t with
  | some k => .keyword k
  | none => .identifier t

/-- The lexeme at the front of a text that starts with no gap, and its length; or a fault and how
much of the text it spoils. -/
def lexeme (t : Text) : Except (Fault × Nat) (Lexeme × Nat) :=
  match t with
  | [] => .ok (.endOfInput, 0)
  | b :: rest =>
    if b == quoteSign then
      match stringBody? false rest with
      | some (value, n) => .ok (.string value, n + 1)
      | none => .error (.unterminatedString t, t.length)
    else if Decimal.isDigit b then
      let n := numberLength false t
      let literal := t.take n
      match Decimal.ofLiteral? literal with
      | some value => .ok (.number literal value, n)
      | none => .error (.malformedNumber literal, n)
    else if isNameStart b then
      let name := t.takeWhile isNamePart
      .ok (word name, name.length)
    else
      match Mark.ofByte? b with
      | some m => .ok (.mark m, 1)
      | none =>
        if isOperatorByte b then
          let spelling := t.takeWhile isOperatorByte
          .ok (.operator spelling, spelling.length)
        else .error (.invalidCharacter b, 0)

end Scan

namespace Cursor

/-- The cursor at the start of a source. -/
def ofSource (source : Text) : Cursor := ⟨source, Pos.start⟩

/-- The cursor `n` bytes further on. -/
def skip (c : Cursor) (n : Nat) : Cursor := ⟨c.rest.drop n, c.pos.after (c.rest.take n)⟩

/-- The cursor at the next token. -/
def skipGap (c : Cursor) : Cursor := c.skip (Scan.gapLength false c.rest)

/-- The next token or fault, and the cursor after it. -/
def scan (c : Cursor) : Except Error Token × Cursor :=
  let c := c.skipGap
  match Scan.lexeme c.rest with
  | .ok (l, n) => (.ok ⟨l, c.pos⟩, c.skip n)
  | .error (fault, n) => (.error (fault.error c.pos), c.skip n)

end Cursor

end Mycel
