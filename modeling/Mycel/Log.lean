import Mycel.Error.Basic
import Mycel.Text.Lowercase
import Mycel.Text.Utf8

/-!
# Logs

A logger has a level and keeps the lines at or above it. A line has a message and what is known
about the event.
-/

namespace Mycel

/-- How much an event matters. -/
inductive Level where
  | trace
  | debug
  | info
  | warn
  | error
  | fatal
  | panic
  /-- Above every event: a logger at this level is silent. -/
  | off
  deriving DecidableEq, Repr

namespace Level

/-- The levels that have names, from the least on. -/
def all : List Level := [trace, debug, info, warn, error, fatal, panic]

/-- The name of a level. -/
def name : Level → Text
  | trace => bytes "trace"
  | debug => bytes "debug"
  | info => bytes "info"
  | warn => bytes "warn"
  | error => bytes "error"
  | fatal => bytes "fatal"
  | panic => bytes "panic"
  | off => []

/-- The rank of a level. -/
def rank : Level → Nat
  | trace => 1
  | debug => 2
  | info => 3
  | warn => 4
  | error => 5
  | fatal => 6
  | panic => 7
  | off => 8

/-- The level with a name, in either case of letters. -/
def ofName? (t : Text) : Option Level := all.find? fun l => l.name == t.lowercase

/-- The level that a logger is asked for. It knows a longer name for warnings too, and an unknown
name silences it. -/
def ofName (t : Text) : Level :=
  if t.lowercase == bytes "warning" then warn else (ofName? t).getD off

end Level

/-- A line of a log. -/
structure LogLine where
  level : Level
  message : Text
  /-- Whether the line names a run. -/
  hasRun : Bool := false
  code : Option Text := none
  error : Option Text := none
  steps : Option Nat := none
  bounces : Option Nat := none
  deriving DecidableEq, Repr

/-- The line with texts that are UTF-8: a stray byte is replaced. -/
def LogLine.repaired (l : LogLine) : LogLine :=
  { l with
    message := Utf8.repair l.message
    code := l.code.map Utf8.repair
    error := l.error.map Utf8.repair }

/-- A logger with the lines that it has written, the newest first. Without a level there is no
logger, and nothing is written. -/
structure Log where
  level : Option Level := none
  lines : List LogLine := []
  deriving Repr

namespace Log

/-- Writes a line, if its level is high enough. What is written is UTF-8. -/
def write (log : Log) (line : LogLine) : Log :=
  match log.level with
  | none => log
  | some least =>
    if least.rank ≤ line.level.rank then { log with lines := line.repaired :: log.lines } else log

end Log

end Mycel
