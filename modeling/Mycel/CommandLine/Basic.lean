import Mycel.CommandLine.Address
import Mycel.CommandLine.Arguments
import Mycel.Config.Loading
import Mycel.Repl.Basic

/-!
# The command line

A command runs on files, an environment and an input, and leaves an exit code, what the user saw,
what was logged and the files.
-/

namespace Mycel

/-- What a command finds. -/
structure Surroundings where
  files : Files := {}
  env : Environment := []
  input : Text := []

/-- What a command leaves. -/
structure Outcome where
  exit : Nat := 0
  console : Console := {}
  log : List LogLine := []
  files : Files

namespace Invocation

/-- The path of the configuration: an option goes before the environment. -/
def configPath (i : Invocation) (env : Environment) : Text :=
  (i.config.orElse fun _ => env.get? (bytes "WSCRIPT_CONFIG")).getD []

/-- The configuration from a file, if there is one. -/
def fileConfig (i : Invocation) (s : Surroundings) : Except Text Config :=
  let path := i.configPath s.env
  if path.isEmpty then .ok Config.default
  else match Config.load s.env s.files path with
    | .ok c => .ok c
    | .error e => .error (bytes "load config " ++ path ++ bytes ": " ++ e.message)

/-- A configuration with what the options say in place of what it says. -/
def override (i : Invocation) (c : Config) : Config :=
  { c with
    runtime := { c.runtime with stackBudget := i.stackBudget.getD c.runtime.stackBudget }
    level := i.logLevel.getD c.level }

/-- The configuration of a command. -/
def loadConfig (i : Invocation) (s : Surroundings) : Except Text Config := do
  let c := i.override (← i.fileConfig s)
  match c.fault? with
  | some f => throw f.message
  | none => return c

end Invocation

namespace CommandLine

/-- A session as a configuration wants it. -/
def session (c : Config) : Session :=
  { Session.new { log := c.log } with settings := c.runtime }

/-- The end of a command that complains. -/
def failure (s : Surroundings) (message : Text) : Outcome :=
  { exit := 1, console := ({} : Console).complain message, files := s.files }

/-- Evaluates files one after another, each in a global scope of its own, up to the first that
fails. -/
def runFiles (c : Config) (fs : Files) : Console → List LogLine → List Text → Outcome
  | console, log, [] => { console, log, files := fs }
  | console, log, path :: rest =>
    match fs.readSource path with
    | .error e => { exit := 1, console := console.complain e.text, log, files := fs }
    | .ok source =>
      let (s, e) := (session c).eval {} source
      let (s, written) := s.takeOutput
      let (_, lines) := s.takeLog
      let console := console.print written
      let log := log ++ lines
      match e.result with
      | .error err =>
        { exit := 1, console := console.complain (path ++ bytes ": " ++ err.render source), log,
          files := fs }
      | .ok v =>
        runFiles c fs (console.printLine (bytes "Program ended with: " ++ v.inspect)) log rest

/-- Where the history of an interactive session is kept. -/
def historyPath (c : Config) (env : Environment) : Text :=
  History.location ((env.get? (bytes "HOME")).getD []) c.repl.historyFile

/-- The start of an interactive session. -/
def startRepl (c : Config) (fs : Files) (path : Text) : Repl :=
  let s := session c
  let (history, log) := History.load fs path s.store.world.log
  { session := s.mapWorld fun w => { w with log }
    prompt := c.repl.prompt
    history
    console := ({} : Console).printLine Repl.banner }

/-- The end of an interactive session. -/
def finishRepl (r : Repl) (fs : Files) (path : Text) : Outcome :=
  let (fs, log) := r.history.save fs path r.session.store.world.log
  { console := r.console, log := log.lines.reverse, files := fs }

/-- An interactive session on an input. -/
def runRepl (c : Config) (s : Surroundings) : Outcome :=
  let path := historyPath c s.env
  finishRepl ((startRepl c s.files path).run s.input) s.files path

/-- Starts the server. There are no sockets to listen on, so that only its start is told. -/
def startServer (c : Config) (s : Surroundings) (addr : Text) : Outcome :=
  let log := c.log.write { level := .info, message := bytes "starting server" }
  let why := (Address.fault? addr).getD (bytes ": address " ++ addr ++ bytes ": not available")
  { failure s (bytes "failed to listen: listen tcp4" ++ why) with log := log.lines.reverse }

/-- Does what an invocation says. -/
def execute (i : Invocation) (s : Surroundings) : Outcome :=
  match i.command with
  | .run [] =>
    { exit := 2, console := ({} : Console).complain (bytes "usage: wscript run FILE.mc...")
      files := s.files }
  | command =>
    match i.loadConfig s with
    | .error message => failure s message
    | .ok c =>
      match command with
      | .run paths => runFiles c s.files {} [] paths
      | .repl => runRepl c s
      | .serve addr => startServer c s (addr.getD c.server.addr)

/-- Does what arguments say. -/
def run (args : List Text) (s : Surroundings) : Outcome :=
  match Invocation.ofArguments args with
  | .error e => failure s e.message
  | .ok i => execute i s

end CommandLine

end Mycel
