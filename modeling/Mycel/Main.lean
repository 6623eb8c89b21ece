import Mycel.CommandLine.Basic
import Mycel.Json.Writer

/-!
# The program

The outer layer of the command line: it fetches what a command looks at, runs the command, and
shows and stores what the command leaves.
-/

namespace Mycel.Outer

/-- A text as a string, where bytes that are not UTF-8 are replaced. -/
def string (t : Text) : String :=
  (String.fromUTF8? ⟨(Utf8.repair t).toArray⟩).getD ""

/-- Writes a text to a stream. -/
def put (stream : IO.FS.Stream) (t : Text) : IO Unit := do
  stream.write ⟨t.toArray⟩
  stream.flush

/-- A line of the log as it is written. -/
def logText (l : LogLine) : Text :=
  let member := fun (name : String) (v : Option Json) => (v.map fun j => (bytes name, j)).toList
  let fields := member "level" (some (.string l.level.name)) ++
    member "code" (l.code.map .string) ++
    member "steps" (l.steps.map fun n => .int n) ++
    member "bounces" (l.bounces.map fun n => .int n) ++
    member "error" (l.error.map .string) ++
    member "message" (some (.string l.message))
  (Json.object fields).write ++ [Text.newline]

/-- Adds what a path leads to. -/
def fetch (fs : Files) (path : Text) : IO Files := do
  let place := (← IO.currentDir) / string path
  if path.isEmpty then return fs
  else if ← place.isDir then return fs.addDirectory path
  else
    try
      let content ← IO.FS.readBinFile place
      return fs.addFile path content.data.toList
    catch _ => return fs

/-- The variables with some names. -/
def lookUp (names : List Text) : IO Environment :=
  names.filterMapM fun n => do return (← IO.getEnv (string n)).map fun v => (n, bytes v)

/-- Shows what a command leaves. -/
def present (o : Outcome) : IO UInt32 := do
  put (← IO.getStdout) o.console.out
  put (← IO.getStderr) (o.console.err ++ o.log.flatMap logText)
  return o.exit.toUInt32

/-- Stores a file that a command changed. -/
def store (before after : Files) (path : Text) : IO Unit := do
  match before.read path, after.read path with
  | .ok old, .ok new => if old != new then write new
  | .error _, .ok new => write new
  | _, .error _ => return
where
  write (t : Text) : IO Unit := do
    IO.FS.writeBinFile ((← IO.currentDir) / string path) ⟨t.toArray⟩

/-- Shows what a session has to show, and forgets it. -/
def flush (r : Repl) : IO Repl := do
  put (← IO.getStdout) r.console.out
  put (← IO.getStderr) r.console.err
  let (session, lines) := r.session.takeLog
  put (← IO.getStderr) (lines.flatMap logText)
  return { r with session, console := {} }

/-- Takes the parts of what was read from the user, and says whether the session ends. -/
partial def takeParts (r : Repl) (input : Text) : IO (Repl × Bool) := do
  match LineRead.next? input with
  | none => return (r, false)
  | some line =>
    let (r, quit) := r.feed line.content
    let r ← flush r
    if quit then return (r, true) else takeParts r line.rest

/-- Talks to the user until the session or the input ends. -/
partial def converse (r : Repl) : IO Repl := do
  let r ← flush (r.mapConsole (·.print r.currentPrompt))
  let line ← (← IO.getStdin).getLine
  if line.isEmpty then flush (r.mapConsole (·.printLine []))
  else
    let (r, quit) ← takeParts r (bytes line)
    if quit then return r else converse r

/-- An interactive session with the user. -/
def interact (c : Config) (s : Surroundings) : IO UInt32 := do
  let path := CommandLine.historyPath c s.env
  let home := (s.env.get? (bytes "HOME")).getD []
  let fs ← [home, path, History.lockPath path].foldlM fetch s.files
  let r ← converse (CommandLine.startRepl c fs path)
  let outcome := CommandLine.finishRepl r fs path
  store fs outcome.files (History.lockPath path)
  store fs outcome.files path
  present outcome

/-- Does what an invocation says. -/
def perform (i : Invocation) : IO UInt32 := do
  let env ← lookUp [bytes "HOME", bytes "WSCRIPT_CONFIG"]
  let config := i.configPath env
  let paths := match i.command with
    | .run paths => paths
    | _ => []
  let fs ← (config :: paths).foldlM fetch (Files.inDirectory (bytes (← IO.currentDir).toString))
  let text := (fs.read config).toOption.getD []
  let s : Surroundings := { files := fs, env := env ++ (← lookUp (Environment.names text)) }
  match i.command, i.loadConfig s with
  | .repl, .ok c => interact c s
  | _, _ => present (CommandLine.execute i s)

end Mycel.Outer

/-- Runs the command that the arguments say. -/
def main (args : List String) : IO UInt32 :=
  match Mycel.Invocation.ofArguments (args.map Mycel.bytes) with
  | .ok i => Mycel.Outer.perform i
  | .error e => Mycel.Outer.present (Mycel.CommandLine.failure {} e.message)
