import Mycel.Error.Snippet
import Mycel.Repl.History
import Mycel.Session
import Mycel.Text.Blank

/-!
# The interactive session

Lines are gathered until they are a program or cannot become one, and then evaluated in the global
scope of the session. A colon starts a command.
-/

namespace Mycel

/-- What a program shows its user. -/
structure Console where
  out : Text := []
  err : Text := []

namespace Console

/-- Shows a text. -/
def print (c : Console) (t : Text) : Console := { c with out := c.out ++ t }

/-- Shows a line. -/
def printLine (c : Console) (t : Text) : Console := c.print (t ++ [Text.newline])

/-- Shows a line about an error. -/
def complain (c : Console) (t : Text) : Console := { c with err := c.err ++ t ++ [Text.newline] }

end Console

/-- Whether a source that was refused with an error can still be completed. -/
def Error.isIncomplete (e : Error) : Bool :=
  match e.diagnostic? with
  | some d =>
    match d.code with
    | .parse => d.found == bytes "end of input"
    | .lex => d.message.startsWith (bytes "unterminated")
    | _ => false
  | none => false

/-- Whether more lines can make a source a program. -/
def isIncomplete (source : Text) : Bool :=
  match Program.parse source with
  | .ok _ => false
  | .error e => e.isIncomplete

/-- An interactive session. -/
structure Repl where
  session : Session
  prompt : Text
  history : History := {}
  /-- The lines that do not make a program yet. -/
  pending : Text := []
  console : Console := {}

namespace Repl

/-- What a session starts with. -/
def banner : Text := bytes "Mycel REPL. Type :env to list globals, :quit to exit."

/-- The prompt for the lines after the first. -/
def continuation : Text := bytes "... "

/-- The prompt for the next line. -/
def currentPrompt (r : Repl) : Text := if r.pending.isEmpty then r.prompt else continuation

/-- Whether a text is a command. -/
def isCommand (t : Text) : Bool := t.trim.startsWith [58]

/-- Changes what the user sees. -/
def mapConsole (r : Repl) (f : Console → Console) : Repl := { r with console := f r.console }

/-- The global names and their values, one a line. -/
def environment (s : Session) : Text :=
  s.names.flatMap fun name =>
    match s.get name with
    | .ok v => name ++ bytes " = " ++ v.inspect ++ [Text.newline]
    | .error _ => []

/-- Obeys a command, and says whether the session ends. -/
def command (r : Repl) (t : Text) : Repl × Bool :=
  let name := t.lowercase
  if name = bytes ":quit" ∨ name = bytes ":q" then (r, true)
  else if name = bytes ":env" then (r.mapConsole (·.print (environment r.session)), false)
  else (r.mapConsole (·.printLine (bytes "unknown command. Type :quit to exit.")), false)

/-- Evaluates a source, and shows its value or its error. -/
def evaluate (r : Repl) (source : Text) : Repl :=
  let (session, e) := r.session.eval {} source
  let (session, written) := session.takeOutput
  let r := { r with session }.mapConsole (·.print written)
  match e.result with
  | .ok v => r.mapConsole (·.printLine v.inspect)
  | .error err => r.mapConsole (·.complain (err.render source))

/-- Takes a whole entry, and says whether the session ends. -/
def submit (r : Repl) (entry : Text) : Repl × Bool :=
  let trimmed := entry.trim
  if trimmed.isEmpty then (r, false)
  else
    let line := entry.map fun b => if b = Text.newline then 32 else b
    let r := { r with history := r.history.append line }
    if isCommand entry then r.command trimmed else (r.evaluate entry, false)

/-- Takes a line, and says whether the session ends. -/
def feed (r : Repl) (line : Text) : Repl × Bool :=
  let entry := if r.pending.isEmpty then line else r.pending ++ Text.newline :: line
  if isCommand entry || !isIncomplete entry then { r with pending := [] }.submit entry
  else ({ r with pending := entry }, false)

/-- Takes lines until the session or the input ends. The first argument bounds their number. -/
def runWithin : Nat → Repl → Text → Repl
  | 0, r, _ => r
  | n + 1, r, input =>
    let r := r.mapConsole (·.print r.currentPrompt)
    match LineRead.next? input with
    | none => r.mapConsole (·.printLine [])
    | some line =>
      let (r, quit) := r.feed line.content
      if quit then r else runWithin n r line.rest

/-- Takes the lines of an input. -/
def run (r : Repl) (input : Text) : Repl := runWithin (input.length + 1) r input

end Repl

end Mycel
