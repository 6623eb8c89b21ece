import Mycel.Bcl
import Mycel.Config.Basic
import Mycel.Config.Expansion
import Mycel.Files
import Mycel.Json.Fields
import Mycel.Json.Reader
import Mycel.Yaml.Fields

/-!
# Loading configurations

A configuration is written in one of three formats. References to the environment are replaced in
the text before it is read.
-/

namespace Mycel

/-- A format for configurations. -/
inductive ConfigFormat where
  | yaml
  | json
  | bcl
  deriving DecidableEq, Repr

/-- The format with a name. -/
def ConfigFormat.ofName? (name : Text) : Option ConfigFormat :=
  if name == bytes "yaml" || name == bytes "yml" then some yaml
  else if name == bytes "json" then some json
  else if name == bytes "bcl" then some bcl
  else none

/-- Why there is no valid configuration. -/
inductive ConfigError where
  /-- No format has this name. -/
  | unsupported (format : Text)
  /-- The file cannot be read. -/
  | unreadable (path : Text) (e : FileError)
  /-- The text does not say a configuration in its format. -/
  | malformed
  /-- The configuration is invalid. -/
  | invalid (c : Config) (f : ConfigFault)

/-- The wording of an error. -/
def ConfigError.message : ConfigError → Text
  | unsupported format => bytes "unsupported config format: " ++ Quoted.text format
  | unreadable path e => e.text path
  | malformed => bytes "malformed config"
  | invalid _ f => f.message

namespace Config

variable {δ : Type}

/-- The fields of the section on evaluation. -/
def runtimeFields (f : Format δ) : List (Field δ Settings) :=
  [.ofReading "stack_budget" f.whole fun r n => { r with stackBudget := n },
   .ofReading "max_bounces" f.whole fun r n => { r with maxBounces := n },
   .ofReading "log_evaluation" f.truth fun r b => { r with logEvaluation := b }]

/-- The fields of the section on the log. -/
def logFields (f : Format δ) : List (Field δ Text) := [.ofReading "level" f.text fun _ t => t]

/-- The fields of the section on the server. -/
def serverFields (f : Format δ) : List (Field δ ServerSection) :=
  [.ofReading "addr" f.text fun r t => { r with addr := t },
   .ofReading "version" f.text fun r t => { r with version := t },
   .ofReading "cache_size" f.whole fun r n => { r with cacheSize := n },
   .ofReading "max_body_size" f.whole fun r n => { r with maxBodySize := n }]

/-- The fields of the section on the interactive session. -/
def replFields (f : Format δ) : List (Field δ ReplSection) :=
  [.ofReading "history_file" f.text fun r t => { r with historyFile := t },
   .ofReading "prompt" f.text fun r t => { r with prompt := t }]

/-- The sections of a configuration. -/
def sections (f : Format δ) : List (Field δ Config) :=
  [.nested f "runtime" (runtimeFields f) (·.runtime) fun c s => { c with runtime := s },
   .nested f "log" (logFields f) (·.level) fun c s => { c with level := s },
   .nested f "server" (serverFields f) (·.server) fun c s => { c with server := s },
   .nested f "repl" (replFields f) (·.repl) fun c s => { c with repl := s }]

/-- The configuration that a document says, without defaults. -/
def ofDocument? (f : Format δ) (d : δ) : Option Config := Field.fillFrom f (sections f) {} d

/-- The configuration that a text says, without defaults. -/
def decode? : ConfigFormat → Text → Option Config
  | .yaml, t => (Yaml.parse? t).bind fun d => ofDocument? Yaml.format (.ofDocument d)
  | .json, t => (Json.parse? t).bind (ofDocument? Json.format)
  | .bcl, t => (Bcl.parse? t).bind (ofDocument? Bcl.format)

/-- The valid configuration that a text says. -/
def ofText (env : Environment) (format : ConfigFormat) (t : Text) : Except ConfigError Config :=
  match decode? format (env.expand t) with
  | none => .error .malformed
  | some c =>
    let c := c.withDefaults
    match c.fault? with
    | some f => .error (.invalid c f)
    | none => .ok c

/-- Loads a configuration from a text in a named format. -/
def loadText (env : Environment) (format t : Text) : Except ConfigError Config :=
  match ConfigFormat.ofName? format.lowercase with
  | none => .error (.unsupported format.lowercase)
  | some f => ofText env f t

/-- What follows the last dot in the last name of a path. -/
def extension (path : Text) : Text :=
  let name := path.reverse.takeWhile (· != 47)
  if name.contains 46 then (name.takeWhile (· != 46)).reverse else []

/-- Loads a configuration from a file. Its format is the extension of its name, and a file of no
known format is not looked at. -/
def load (env : Environment) (fs : Files) (path : Text) : Except ConfigError Config :=
  let format := Text.lowercase (extension path)
  match ConfigFormat.ofName? format with
  | none => .error (.unsupported format)
  | some f =>
    match fs.read path with
    | .error e => .error (.unreadable path e)
    | .ok t => ofText env f t

end Config

end Mycel
