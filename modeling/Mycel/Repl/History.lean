import Mycel.Files
import Mycel.Log
import Mycel.Text.LineReader
import Mycel.Text.Utf8

/-!
# The history of a session

The history keeps what was entered, without immediate repetitions, and at most a thousand lines of
it. It is loaded when a session starts and written back when it ends, under a lock.
-/

namespace Mycel

/-- What was entered, the newest first. -/
structure History where
  entries : List Text := []

namespace History

/-- The greatest number of entries. -/
def limit : Nat := 1000

/-- One more entry. The oldest one has to go when there are too many. -/
def push (h : History) (entry : Text) : History := ⟨(entry :: h.entries).take limit⟩

/-- One more entry, unless it repeats the newest one. -/
def append (h : History) (entry : Text) : History :=
  if h.entries.head? = some entry then h else h.push entry

/-- Adds the lines of a text that come after `count` others, up to the first one that cannot be an
entry. The second argument bounds their number. -/
def readFrom (count : Nat) : Nat → History → Text → History × Option Text
  | 0, h, _ => (h, none)
  | n + 1, h, t =>
    match LineRead.next? t with
    | none => (h, none)
    | some line =>
      let number := Text.ofNat (count + 1)
      if line.isPart then (h, some (bytes "line " ++ number ++ bytes " is too long"))
      else if !Utf8.isValid line.content then
        (h, some (bytes "invalid string at line " ++ number))
      else readFrom (count + 1) n (h.push line.content) line.rest

/-- The history in a text, and what is wrong with the text. -/
def read (t : Text) : History × Option Text := readFrom 0 (t.length + 1) {} t

/-- The text of a history, one entry a line. -/
def render (h : History) : Text := h.entries.reverse.flatMap fun e => e ++ [Text.newline]

/-- Where the history is kept: a relative path starts at the home directory, if there is one. -/
def location (home path : Text) : Text :=
  if Path.isAbsolute path || home.isEmpty then path else Path.join home path

/-- A warning about the history. -/
def warning (message : String) (error : Text) : LogLine :=
  { level := .warn, message := bytes message, error := some error }

/-- Loads the history from a path. What cannot be opened is an empty history. -/
def load (fs : Files) (path : Text) (log : Log) : History × Log :=
  match fs.read path with
  | .error e =>
    if e = .isDirectory then ({}, log.write (warning "failed to read history" (e.text path)))
    else ({}, log)
  | .ok t =>
    match read t with
    | (h, none) => (h, log)
    | (h, some fault) => (h, log.write (warning "failed to read history" fault))

/-- The path of the lock for a history. -/
def lockPath (path : Text) : Text := path ++ bytes ".lock"

/-- Takes the lock on a history, which is a file that stays. -/
def lock (fs : Files) (path : Text) : Except FileError Files :=
  match fs.read path with
  | .ok _ => .ok fs
  | .error _ => fs.write path []

/-- Writes the history to a path, if its lock can be taken. -/
def save (h : History) (fs : Files) (path : Text) (log : Log) : Files × Log :=
  match lock fs (lockPath path) with
  | .error e =>
    (fs, log.write (warning "history file is locked, not saving" (e.writeText (lockPath path))))
  | .ok fs =>
    match fs.write path h.render with
    | .error e => (fs, log.write (warning "failed to write history" (e.writeText path)))
    | .ok fs => (fs, log)

end History

end Mycel
