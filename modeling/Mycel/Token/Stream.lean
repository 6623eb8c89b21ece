import Mycel.Token.Scan

/-!
# Token streams

The tokens of a source, up to its end or to the first fault. The end can be read any number of
times.
-/

namespace Mycel

/-- The tokens still to be read. -/
inductive Stream where
  /-- A token, and those after it. -/
  | token (head : Token) (rest : Stream)
  /-- The end of the input. -/
  | finish (pos : Pos)
  /-- A place where no token can be read. -/
  | broken (error : Error)
  deriving DecidableEq, Repr

namespace Stream

/-- The number of tokens before the end. -/
def length : Stream → Nat
  | token _ rest => rest.length + 1
  | finish _ => 0
  | broken _ => 0

/-- The tokens before the end. -/
def tokens : Stream → List Token
  | token head rest => head :: rest.tokens
  | finish _ => []
  | broken _ => []

/-- What comes after the last token: the end of the input, or an error. -/
def last : Stream → Except Error Token
  | token _ rest => rest.last
  | finish pos => .ok ⟨.endOfInput, pos⟩
  | broken e => .error e

/-- At most `n` tokens from a cursor. Every token takes a byte, so the length of the rest is enough
for all of them. -/
def scanWithin : Nat → Cursor → Stream
  | 0, c => .finish c.skipGap.pos
  | n + 1, c =>
    match c.scan with
    | (.ok ⟨.endOfInput, pos⟩, _) => .finish pos
    | (.ok t, c) => .token t (scanWithin n c)
    | (.error e, _) => .broken e

/-- The tokens of a source. -/
def ofSource (source : Text) : Stream := scanWithin (source.length + 1) (Cursor.ofSource source)

/-- The next token, which may be the end. -/
def peek : Stream → Except Error Token
  | token head _ => .ok head
  | finish pos => .ok ⟨.endOfInput, pos⟩
  | broken e => .error e

/-- The stream after its next token. -/
def tail : Stream → Stream
  | token _ rest => rest
  | s => s

/-- Takes the next token, which has to be `wanted`. -/
def expect (wanted : Lexeme) (s : Stream) : Except Error Stream := do
  let t ← s.peek
  if t.lexeme = wanted then return s.tail
  else throw ((Fault.expecting wanted.describe t.lexeme.describe).error t.pos)

/-- The error that the next token cannot stand where it does. -/
def unexpected (s : Stream) : Error :=
  match s.peek with
  | .ok t => (Fault.unexpectedToken t.lexeme.describe).error t.pos
  | .error e => e

end Stream

end Mycel
