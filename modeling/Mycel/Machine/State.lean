import Mycel.Machine.Settings
import Mycel.Machine.World

/-!
# States of the evaluator

A machine evaluates programs in runs. It counts guarded steps, and after as many of them as its
budget allows it bounces: it gives up its stack and starts again from where it was. Runs nest when a
builtin starts one on the same machine. A continuation belongs to the machine that made it,
whichever run it is invoked in.
-/

namespace Mycel

/-- A machine: its settings and its counters. -/
structure Machine where
  settings : Settings
  /-- The guarded steps that are left before the next bounce. -/
  budget : Int := 0
  /-- The number of runs that are under way. -/
  depth : Nat := 0
  /-- The outermost run that the counters are about, if there has been one. -/
  runId : Option Nat := none
  steps : Nat := 0
  bounces : Nat := 0
  deriving Inhabited, Repr

/-- Whether there has been a run. -/
def Machine.hasRun (m : Machine) : Bool := m.runId.isSome

/-- The places where a machine can bounce. -/
inductive Target where
  | evaluate
  | program
  | programNext
  | call
  | callArguments
  | callArgument
  | bindings
  | bindNext
  | lambda
  | assign
  | binaryLeft
  | binaryRight
  | branch
  | apply
  deriving DecidableEq, Repr

/-- The name of a place, for messages. -/
def Target.name : Target → Text
  | evaluate => bytes "evaluate"
  | program => bytes "program"
  | programNext => bytes "program.next"
  | call => bytes "call"
  | callArguments => bytes "call.args"
  | callArgument => bytes "call.arg"
  | bindings => bytes "let"
  | bindNext => bytes "let.bind"
  | lambda => bytes "lambda"
  | assign => bytes "assign"
  | binaryLeft => bytes "binary.left"
  | binaryRight => bytes "binary.right"
  | branch => bytes "if"
  | apply => bytes "apply"

/-- The guard of a continuation. Giving a value to a run or to the host is not guarded. -/
def Continuation.target? : Continuation → Option Target
  | final _ => none
  | assign _ _ _ _ => some .assign
  | left _ _ _ _ _ => some .binaryLeft
  | right _ _ _ _ => some .binaryRight
  | branch _ _ _ _ => some .branch
  | sequence _ _ _ => some .programNext
  | callee _ _ _ _ => some .call
  | argument _ _ _ _ _ _ _ => some .callArgument
  | bind _ _ _ _ _ => some .bindNext
  | applied _ => some .apply
  | again _ _ => some .apply
  | hosted _ => none

/-- What a machine does next. -/
inductive Control where
  /-- Evaluates a node. -/
  | evaluate (node : Node) (scope : ScopeId) (k : Continuation)
  /-- Evaluates the rest of a sequence, of which `last` is the latest value. -/
  | sequence (rest : List Node) (scope : ScopeId) (last : Value) (k : Continuation)
  /-- Evaluates the rest of the arguments of a call. -/
  | arguments (pos : Pos) (rest : List Node) (scope : ScopeId) (callee : Value)
      (buffer filled : Nat) (k : Continuation)
  /-- Makes the rest of the bindings of a `let`. -/
  | bindings (rest : List (Text × Node)) (body : Node) (scope : ScopeId) (k : Continuation)
  /-- Calls a closure. -/
  | enter (closure : Closure) (args : List Value) (k : Continuation)
  /-- Gives a value to a continuation. -/
  | resume (k : Continuation) (value : Value)
  /-- Calls a builtin. -/
  | perform (action : Action) (args : List Value) (k : Continuation)
  /-- Tells the host how a run of its own ended. -/
  | report (number : Nat) (result : Except Error Value)

/-- The guard of a step. Builtins and the host need none. -/
def Control.target? : Control → Option Target
  | evaluate _ _ _ => some .evaluate
  | sequence _ _ _ _ => some .program
  | arguments _ _ _ _ _ _ _ => some .callArguments
  | bindings _ _ _ _ => some .bindings
  | enter _ _ _ => some .lambda
  | resume k _ => k.target?
  | perform _ _ _ => none
  | report _ _ => none

/-- Everything that outlives a run: the world, the machines, and the buffers in which the arguments
of a call are gathered. A call has one buffer, however often its continuations are invoked. -/
structure Store where
  world : World := {}
  machines : Array Machine := #[]
  buffers : Array (Array Value) := #[]
  /-- The number of runs so far. -/
  runs : Nat := 0

/-- A run under way. -/
structure Run where
  id : Nat
  machine : Nat
  /-- For a nested run: what was left of the budget of the run around it. -/
  saved : Option Int
  /-- A result that a nested run has given to it. -/
  result : Option Value := none

/-- What is done when a nested run has ended. -/
inductive Resumption where
  /-- A continuation gets the value; a failure is passed on. -/
  | value (k : Continuation)
  /-- The host gets the value or the failure. -/
  | host (number : Nat)

/-- A run that waits for a nested one. -/
structure Suspended where
  run : Run
  resumption : Resumption

/-- Keeps a result for the run, if it is the one with a given number. -/
def Suspended.keep (s : Suspended) (id : Nat) (v : Value) : Suspended :=
  if s.run.id = id then { s with run := { s.run with result := some v } } else s

/-- A machine at work, the run that it works for, and the runs around that one. -/
structure State where
  store : Store
  machine : Nat
  control : Control
  run : Run
  waiting : List Suspended

/-- What becomes of a state. -/
inductive Progress where
  | running (s : State)
  | finished (store : Store) (result : Except Error Value)

namespace Store

/-- Changes the counters of a machine. -/
def modifyMachine (st : Store) (m : Nat) (f : Machine → Machine) : Store :=
  { st with machines := st.machines.modify m f }

/-- Adds a machine. -/
def addMachine (st : Store) (settings : Settings) : Store × Nat :=
  let m := st.machines.size
  ({ st with machines := st.machines.push { settings } }, m)

/-- A machine of the store. -/
def machine (st : Store) (m : Nat) : Machine := st.machines[m]?.getD default

/-- Adds a buffer. -/
def addBuffer (st : Store) : Store × Nat :=
  let buffer := st.buffers.size
  ({ st with buffers := st.buffers.push #[] }, buffer)

/-- Puts a value after the first `filled` values of a buffer. What was further on stays there. -/
def fillBuffer (st : Store) (buffer filled : Nat) (v : Value) : Store :=
  { st with
    buffers := st.buffers.modify buffer fun vs =>
      if filled < vs.size then vs.setIfInBounds filled v else vs.push v }

/-- The first `filled` values of a buffer. -/
def buffered (st : Store) (buffer filled : Nat) : List Value :=
  (st.buffers[buffer]?.getD #[]).toList.take filled

end Store

end Mycel
