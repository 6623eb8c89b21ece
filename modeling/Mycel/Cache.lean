import Mycel.Syntax.Parser

/-!
# A cache of programs

Evaluation never changes a program, so a parsed program can be kept and used again for the same
source. Sources that do not parse are not kept.
-/

namespace Mycel

/-- A program, and which one it is. -/
structure CachedProgram where
  serial : Nat
  program : Program

/-- Whether a cache keeps anything. -/
inductive CacheMode where
  | keeping
  /-- A cache that was closed, or never was there, parses every source anew. -/
  | idle
  deriving DecidableEq, Repr

/-- Programs by their sources. -/
structure ProgramCache where
  mode : CacheMode := .keeping
  entries : List (Text × CachedProgram) := []
  /-- The number of programs that were parsed so far. -/
  parsed : Nat := 0

namespace ProgramCache

/-- The program that is kept for a source. -/
def find? (c : ProgramCache) (source : Text) : Option CachedProgram :=
  match c.mode with
  | .keeping => (c.entries.find? fun (s, _) => s == source).map (·.2)
  | .idle => none

/-- The program of a source, from the cache if it is there. -/
def parse (c : ProgramCache) (source : Text) : ProgramCache × Except Error CachedProgram :=
  match c.find? source with
  | some p => (c, .ok p)
  | none =>
    match Program.parse source with
    | .error e => (c, .error e)
    | .ok program =>
      let p : CachedProgram := ⟨c.parsed, program⟩
      let entries := if c.mode = .keeping then (source, p) :: c.entries else c.entries
      ({ c with entries, parsed := c.parsed + 1 }, .ok p)

/-- Closes a cache. -/
def close (c : ProgramCache) : ProgramCache := { c with mode := .idle, entries := [] }

end ProgramCache

end Mycel
