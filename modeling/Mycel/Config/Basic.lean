import Mycel.Log
import Mycel.Machine.Settings
import Mycel.Text.Quoted

/-!
# Configurations

A configuration says how programs are evaluated, what is logged, and how the server and the
interactive session present themselves. A field that is zero or empty counts as not given and gets
its default; what is then out of range makes the configuration invalid.
-/

namespace Mycel

/-- How the server presents itself. -/
structure ServerSection where
  addr : Text := []
  version : Text := []
  cacheSize : Int := 0
  maxBodySize : Int := 0
  deriving DecidableEq, Repr

/-- How the interactive session presents itself. -/
structure ReplSection where
  historyFile : Text := []
  prompt : Text := []
  deriving DecidableEq, Repr

/-- A configuration. -/
structure Config where
  runtime : Settings := { stackBudget := 0 }
  level : Text := []
  server : ServerSection := {}
  repl : ReplSection := {}
  deriving DecidableEq, Repr

/-- Why a configuration is invalid. -/
inductive ConfigFault where
  /-- There is no configuration. -/
  | absent
  | stackBudget (n : Int)
  | maxBounces (n : Int)
  | level (name : Text)
  | cacheSize (n : Int)
  deriving DecidableEq, Repr

/-- The wording of a fault. -/
def ConfigFault.message : ConfigFault → Text
  | absent => bytes "config is nil"
  | stackBudget n =>
    bytes "runtime.stack_budget must be between 0 and " ++ Text.ofInt Settings.maxBudget ++
      bytes ", got " ++ Text.ofInt n
  | maxBounces n => bytes "runtime.max_bounces must not be negative, got " ++ Text.ofInt n
  | level name =>
    bytes "log.level " ++ Quoted.text name ++ bytes " is not one of " ++
      Text.join (bytes ", ") (Level.all.map Level.name)
  | cacheSize n => bytes "server.cache_size must not be negative, got " ++ Text.ofInt n

namespace Config

/-- A text, or its default where it is empty. -/
def orText (t : Text) (default : String) : Text := if t.isEmpty then bytes default else t

/-- A number, or its default where it is zero. -/
def orInt (n default : Int) : Int := if n = 0 then default else n

/-- The configuration with defaults for what is not given. -/
def withDefaults (c : Config) : Config :=
  { runtime := { c.runtime with stackBudget := orInt c.runtime.stackBudget Settings.defaultBudget }
    level := orText c.level "info"
    server :=
      { addr := orText c.server.addr ":8080"
        version := orText c.server.version "1.0.0"
        cacheSize := orInt c.server.cacheSize 1024
        maxBodySize := orInt c.server.maxBodySize 1048576 }
    repl :=
      { historyFile := orText c.repl.historyFile ".wscript_history"
        prompt := orText c.repl.prompt "> " } }

/-- The configuration of whoever gives none. -/
def default : Config := ({} : Config).withDefaults

/-- The first fault of a configuration. -/
def fault? (c : Config) : Option ConfigFault :=
  if c.runtime.stackBudget < 0 ∨ c.runtime.stackBudget > Settings.maxBudget then
    some (.stackBudget c.runtime.stackBudget)
  else if c.runtime.maxBounces < 0 then some (.maxBounces c.runtime.maxBounces)
  else if (Level.ofName? c.level).isNone then some (.level c.level)
  else if c.server.cacheSize < 0 then some (.cacheSize c.server.cacheSize)
  else none

/-- The logger that a configuration asks for. -/
def log (c : Config) : Log := { level := some (Level.ofName c.level) }

end Config

end Mycel
