import Mycel.Host.Value
import Mycel.Machine.Step

/-!
# Evaluating sources

A session evaluates one source after another in the same global scope, each on a machine of its
own. Executing a source once is a session that is thrown away.
-/

namespace Mycel

/-- The outcome of one evaluation. -/
structure Evaluation where
  result : Except Error Value
  steps : Nat := 0
  bounces : Nat := 0
  /-- Whether there was a run at all. -/
  hasRun : Bool := false

/-- More steps than any host waits for. -/
def horizon : Nat := 1000000000000000000

namespace Store

/-- Runs a node on a machine. A run that goes on beyond the horizon stands for one that never ends:
there is no result of it, and nobody sees a store after it. The function says then that the run has
stalled, and gives an empty store, in which no later evaluation finds anything. What a run comes to,
if it ends, is what `runWithin` says for some number of steps. -/
def run (st : Store) (m : Nat) (node : Node) (scope : ScopeId) : Store × Evaluation :=
  match st.runWithin horizon m node scope with
  | some (st, result) =>
    let machine := st.machine m
    (st, { result, steps := machine.steps, bounces := machine.bounces, hasRun := machine.hasRun })
  | none => ({}, { result := .error (Fault.stalled.error Pos.none) })

/-- Runs a program on a new machine. -/
def runProgram (st : Store) (settings : Settings) (scope : ScopeId) (p : Program) :
    Store × Evaluation :=
  let (st, m) := st.addMachine settings
  st.run m p.toNode scope

/-- Evaluates what a parser made of a source. -/
def evaluateParsed (st : Store) (settings : Settings) (scope : ScopeId) :
    Except Error Program → Store × Evaluation
  | .ok p => st.runProgram settings scope p
  | .error e => (st, { result := .error e })

/-- Evaluates a source in a scope. -/
def evaluateSource (st : Store) (settings : Settings) (scope : ScopeId) (source : Text) :
    Store × Evaluation :=
  st.evaluateParsed settings scope (Program.parse source)

end Store

/-- A store, the global scope of its sources, and the settings that hold for all of them. -/
structure Session where
  store : Store
  globals : ScopeId
  settings : Settings := {}

namespace Session

/-- A session in a world, with a new global scope. -/
def new (w : World) : Session :=
  let (world, globals) := w.globals
  { store := { world }, globals }

/-- A session in a world, with a new scope that binds nothing. -/
def bare (w : World) : Session :=
  let (world, globals) := w.root
  { store := { world }, globals }

/-- Changes the world of a session. -/
def mapWorld (s : Session) (f : World → World) : Session :=
  { s with store := { s.store with world := f s.store.world } }

/-- Adds the host's builtins to the global scope. -/
def addHost (s : Session) : Session :=
  s.mapWorld fun w => w.addBuiltins s.globals World.hostBuiltins

/-- Binds the host's values in the global scope. -/
def defineAll (s : Session) (data : List (Text × HostValue)) : Session :=
  s.mapWorld fun w => HostValue.defineAll s.globals w data

/-- Evaluates a source. -/
def eval (s : Session) (o : Override) (source : Text) : Session × Evaluation :=
  let (store, e) := s.store.evaluateSource (s.settings.effective o) s.globals source
  ({ s with store }, e)

/-- The value of a global name. -/
def get (s : Session) (name : Text) : Except Error Value :=
  match s.store.world.heap.get? s.globals name with
  | some v => .ok v
  | none => .error ((Fault.undefinedVariable name).error Pos.none)

/-- Assigns a host's value to a global name. -/
def set (s : Session) (name : Text) (h : HostValue) : Session × Except Error Value :=
  let (world, v) := h.toValue s.store.world
  match world.heap.set? s.globals name v with
  | some heap => ({ s with store := { s.store with world := { world with heap } } }, .ok v)
  | none =>
    ({ s with store := { s.store with world } },
      .error ((Fault.undefinedVariable name).error Pos.none))

/-- Binds a global name to a host's value. -/
def define (s : Session) (name : Text) (h : HostValue) : Session × Value :=
  let (world, v) := h.toValue s.store.world
  ({ s with store := { s.store with world := world.define s.globals name v } }, v)

/-- The global names. -/
def names (s : Session) : List Text := s.store.world.heap.names s.globals

/-- Takes what has been written since the last time. -/
def takeOutput (s : Session) : Session × Text :=
  (s.mapWorld fun w => { w with output := { w.output with chunks := [] } },
    s.store.world.output.text)

/-- Takes what has been logged since the last time. -/
def takeLog (s : Session) : Session × List LogLine :=
  (s.mapWorld fun w => { w with log := { w.log with lines := [] } },
    s.store.world.log.lines.reverse)

end Session

end Mycel
