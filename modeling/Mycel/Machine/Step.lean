import Mycel.Error.Fault
import Mycel.Machine.State
import Mycel.Syntax.Parser
import Mycel.Syntax.Printer
import Mycel.Value.Operation

/-!
# Steps of the evaluator

`State.step` takes a state one step further. A guarded step is first charged to the machine, which
bounces instead if its budget is used up; the charged step is then charged once more. What the step
itself does, `Control.execute` says by cases.
-/

namespace Mycel

/-- What a step leads to. -/
inductive Effect where
  /-- The next step, on some machine. -/
  | advance (store : Store) (machine : Nat) (control : Control)
  /-- The result of a run. -/
  | deliver (store : Store) (run : Nat) (value : Value)
  /-- Nothing more to do. -/
  | idle (store : Store)
  | fail (store : Store) (error : Error)
  /-- A nested run, and what to do when it has ended. -/
  | nest (store : Store) (node : Node) (scope : ScopeId) (resumption : Resumption)

/-- The step that calls a value, if it can be called. -/
def Value.call? (v : Value) (args : List Value) (k : Continuation) : Option Control :=
  match v with
  | .closure c => some (.enter c args k)
  | .builtin _ _ action => some (.perform action args k)
  | _ => none

namespace Store

/-- The first step of evaluating a node. -/
def evaluate (st : Store) (m : Nat) (scope : ScopeId) (k : Continuation) : Node → Effect
  | .number _ x => .advance st m (.resume k (.number x))
  | .string _ t => .advance st m (.resume k (.string t))
  | .bool _ b => .advance st m (.resume k (.bool b))
  | .identifier pos name =>
    match st.world.heap.get? scope name with
    | some v => .advance st m (.resume k v)
    | none => .fail st ((Fault.undefinedVariable name).error pos)
  | .assign _ (.identifier pos name) value =>
    .advance st m (.evaluate value scope (.assign pos name scope k))
  | .assign pos target _ => .fail st ((Fault.assignTarget target.display).error pos)
  | .binary pos o left right => .advance st m (.evaluate left scope (.left pos o right scope k))
  | .branch _ condition whenTrue whenFalse =>
    .advance st m (.evaluate condition scope (.branch whenTrue whenFalse scope k))
  | .lambda _ name params body =>
    let (world, v) := st.world.makeClosure scope name params body
    .advance { st with world } m (.resume k v)
  | .program _ body => .advance st m (.sequence body scope (.bool false) k)
  | .call pos callee args => .advance st m (.evaluate callee scope (.callee pos args scope k))
  | .binding _ bindings body => .advance st m (.bindings bindings body scope k)
  | .missing => .fail st (Fault.missingNode.error Pos.none)

/-- Applies a value to arguments for a builtin; `k` gets the result. -/
def apply (st : Store) (m : Nat) (f : Value) (args : List Value) (k : Continuation) : Effect :=
  match f.call? args k with
  | some control => .advance st m control
  | none => .fail st ((Fault.notCallable f.kind f.inspect).error Pos.none)

/-- Does what the host wants. -/
def obey (st : Store) (m : Nat) : Demand → Effect
  | .drop => .idle st
  | .fail e => .fail st e
  | .resume k v => .advance st k.machine (.resume k.continuation v)
  | .apply f args number => st.apply m f args (.applied (.hosted number))
  | .run node scope number => .nest st node scope (.host number)

/-- Tells the host something and does what it wants then. -/
def consult (st : Store) (m : Nat) (notice : Notice) : Effect :=
  let (world, demand) := st.world.tell notice
  obey { st with world } m demand

/-- Makes a binding of a `let` and goes on with the others. -/
def bindNext (st : Store) (m : Nat) (scope : ScopeId) (name : Text) (v : Value)
    (rest : List (Text × Node)) (body : Node) (k : Continuation) : Effect :=
  let (world, inside) := st.world.bindIn scope name v
  .advance { st with world } m (.bindings rest body inside k)

/-- What a continuation does with a value. -/
def resume (st : Store) (m : Nat) (v : Value) : Continuation → Effect
  | .final run => .deliver st run v
  | .assign pos name scope k =>
    match st.world.heap.target? scope name with
    | some target => .advance { st with world := st.world.define target name v } m (.resume k v)
    | none => .fail st ((Fault.undefinedVariable name).error pos)
  | .left pos o right scope k => .advance st m (.evaluate right scope (.right pos o v k))
  | .right pos o left k =>
    match o.apply left v with
    | .ok result => .advance st m (.resume k result)
    | .error fault => .fail st (fault.error pos)
  | .branch whenTrue whenFalse scope k =>
    if v.isTruthy then
      if whenTrue.isPresent then .advance st m (.evaluate whenTrue scope k)
      else .advance st m (.resume k v)
    else if whenFalse.isPresent then .advance st m (.evaluate whenFalse scope k)
    else .advance st m (.resume k (.bool false))
  | .sequence rest scope k => .advance st m (.sequence rest scope v k)
  | .callee pos args scope k =>
    let (st, buffer) := st.addBuffer
    .advance st m (.arguments pos args scope v buffer 0 k)
  | .argument pos rest scope callee buffer filled k =>
    .advance (st.fillBuffer buffer filled v) m
      (.arguments pos rest scope callee buffer (filled + 1) k)
  | .bind name rest body scope k => st.bindNext m scope name v rest body k
  | .applied k => .advance st m (.resume k v)
  | .again f k => st.apply m f [v] (.applied k)
  | .hosted number => st.consult m (.applied number v)

/-- Writes a text for a primitive. -/
def writeFor (st : Store) (m : Nat) (primitive : String) (t : Text) (k : Continuation) : Effect :=
  match st.world.output.write? t with
  | some output =>
    .advance { st with world := { st.world with output } } m (.resume k (.bool false))
  | none =>
    .fail st ((Fault.writeFailed (bytes primitive) st.world.output.reason).error Pos.none)

/-- What a builtin does. An argument that is missing is false. -/
def perform (st : Store) (m : Nat) (args : List Value) (k : Continuation) : Action → Effect
  | .print => st.writeFor m "print" ((args.headD (.bool false)).inspect ++ bytes "\n") k
  | .println => st.writeFor m "println" ((args.headD (.bool false)).inspect ++ bytes "\n\n") k
  | .halt => .idle st
  | .count =>
    let n := st.world.counter + 1
    .advance { st with world := { st.world with counter := n } } m
      (.resume k (.number (Float.ofNat n)))
  | .stop =>
    let canceled := st.world.canceled.getD (bytes "context canceled")
    .advance { st with world := { st.world with canceled := some canceled } } m
      (.resume k (.bool true))
  | .fail => .fail st (.plain (args.headD (.bool false)).inspect)
  | .apply => st.apply m (args.headD (.bool false)) args.tail (.applied k)
  | .twice =>
    let f := args.headD (.bool false)
    st.apply m f [args.tail.headD (.bool false)] (.again f k)
  | .inner hosted =>
    match Program.parse (args.headD (.bool false)).inspect with
    | .error e => .fail st e
    | .ok program =>
      let (world, scope) := st.world.globals
      let world := if hosted then world.addBuiltins scope World.hostBuiltins else world
      .nest { st with world } program.toNode scope (.value k)
  | .callcc =>
    let escape := Value.builtin st.world.fresh (bytes "escape") (.escape m k)
    let world := { st.world with fresh := st.world.fresh + 1 }
    apply { st with world } m (args.headD (.bool false)) [escape] (.applied k)
  | .escape machine continuation =>
    .advance st machine (.resume continuation (args.headD (.bool false)))
  | .inert => .idle st
  | .host number => st.consult m (.called number args ⟨m, k⟩)

end Store

/-- What a step does, once it is let through. -/
def Control.execute (st : Store) (m : Nat) : Control → Effect
  | .evaluate node scope k => st.evaluate m scope k node
  | .sequence rest scope last k =>
    match rest with
    | [] => .advance st m (.resume k last)
    | node :: rest => .advance st m (.evaluate node scope (.sequence rest scope k))
  | .arguments pos rest scope callee buffer filled k =>
    match rest with
    | node :: rest =>
      .advance st m (.evaluate node scope (.argument pos rest scope callee buffer filled k))
    | [] =>
      match callee.call? (st.buffered buffer filled) k with
      | some control => .advance st m control
      | none => .fail st ((Fault.notCallable callee.kind callee.inspect).error pos)
  | .bindings rest body scope k =>
    match rest with
    | [] => .advance st m (.evaluate body scope k)
    | (name, definition) :: rest =>
      if definition.isPresent then
        .advance st m (.evaluate definition scope (.bind name rest body scope k))
      else st.bindNext m scope name (.bool false) rest body k
  | .enter closure args k =>
    let (world, scope) := st.world.enter closure args
    .advance { st with world } m (.evaluate closure.body scope k)
  | .resume k v => st.resume m v k
  | .perform action args k => st.perform m args k action
  | .report number result => st.consult m (.ended number result)

namespace Store

/-- Starts a run on a machine. An outermost run starts the counters anew. -/
def beginRun (st : Store) (m : Nat) : Store × Run :=
  let machine := st.machine m
  let saved := if machine.depth > 0 then some machine.budget else none
  let run : Run := { id := st.runs, machine := m, saved }
  let st := st.modifyMachine m fun machine =>
    { machine with
      depth := machine.depth + 1
      budget := machine.settings.stackBudget
      runId := if machine.depth > 0 then machine.runId else some st.runs
      steps := if machine.depth > 0 then machine.steps else 0
      bounces := if machine.depth > 0 then machine.bounces else 0 }
  ({ st with runs := st.runs + 1 }, run)

/-- The line that the end of a run writes to the log. -/
def runLine (machine : Machine) : Option Error → LogLine
  | some e =>
    { level := .error
      message := bytes "evaluation failed"
      hasRun := true
      code := some e.codeName
      error := some e.text
      steps := some machine.steps
      bounces := some machine.bounces }
  | none =>
    { level := .info
      message := bytes "evaluation finished"
      hasRun := true
      steps := some machine.steps
      bounces := some machine.bounces }

/-- Ends a run. A nested run gives back what was left of the budget; an outermost one is logged. -/
def endRun (st : Store) (run : Run) (failure : Option Error) : Store :=
  let machine := st.machine run.machine
  let st :=
    if machine.depth = 1 ∧ machine.settings.logEvaluation then
      { st with world := { st.world with log := st.world.log.write (runLine machine failure) } }
    else st
  st.modifyMachine run.machine fun machine =>
    { machine with depth := machine.depth - 1, budget := run.saved.getD machine.budget }

end Store

namespace State

/-- A failure ends the run, and the runs around it up to the first that lets the host know. -/
def fail (run : Run) (waiting : List Suspended) (st : Store) (e : Error) : Progress :=
  let st := st.endRun run (some e)
  match waiting with
  | [] => .finished st (.error e)
  | ⟨outer, .value _⟩ :: waiting => fail outer waiting st e
  | ⟨outer, .host number⟩ :: waiting =>
    .running ⟨st, run.machine, .report number (.error e), outer, waiting⟩

/-- A result ends the run. The run around it goes on with the result. -/
def succeed (run : Run) (waiting : List Suspended) (st : Store) (v : Value) : Progress :=
  let st := st.endRun run none
  match waiting with
  | [] => .finished st (.ok v)
  | ⟨outer, .value k⟩ :: waiting => .running ⟨st, run.machine, .resume k v, outer, waiting⟩
  | ⟨outer, .host number⟩ :: waiting =>
    .running ⟨st, run.machine, .report number (.ok v), outer, waiting⟩

/-- Nothing more to do ends the run. It fails, unless it was given a result earlier. -/
def conclude (run : Run) (waiting : List Suspended) (st : Store) : Progress :=
  match run.result with
  | some v => succeed run waiting st v
  | none => fail run waiting st (Fault.stalled.error Pos.none)

/-- A result for the current run ends it. One for another run leaves it with nothing to do. -/
def deliver (run : Run) (waiting : List Suspended) (st : Store) (id : Nat) (v : Value) : Progress :=
  if id = run.id then succeed run waiting st v else conclude run (waiting.map (·.keep id v)) st

/-- Starts a run inside a run. -/
def nest (run : Run) (machine : Nat) (waiting : List Suspended) (st : Store) (node : Node)
    (scope : ScopeId) (resumption : Resumption) : Progress :=
  let (st, inner) := st.beginRun machine
  .running
    ⟨st, machine, .evaluate node scope (.final inner.id), inner, ⟨run, resumption⟩ :: waiting⟩

/-- What becomes of a state by the effect of its step. -/
def after (run : Run) (machine : Nat) (waiting : List Suspended) : Effect → Progress
  | .advance st m control => .running ⟨st, m, control, run, waiting⟩
  | .deliver st id v => deliver run waiting st id v
  | .idle st => conclude run waiting st
  | .fail st e => fail run waiting st e
  | .nest st node scope resumption => nest run machine waiting st node scope resumption

/-- Does the step of a state, without a guard. -/
def execute : State → Progress
  | ⟨st, machine, control, run, waiting⟩ => after run machine waiting (control.execute st machine)

/-- Charges a guarded step to the machine. -/
def charge : State → State
  | ⟨st, machine, control, run, waiting⟩ =>
    ⟨st.modifyMachine machine fun m => { m with steps := m.steps + 1, budget := m.budget - 1 },
      machine, control, run, waiting⟩

/-- Whether the machine has used up more than its budget. -/
def isSpent (s : State) : Bool := (s.store.machine s.machine).budget < 0

/-- Bounces: the machine of the current run counts it, and gets a new budget unless the evaluation
has to stop or has bounced too often. -/
def bounce (target : Target) : State → Progress
  | ⟨st, machine, control, run, waiting⟩ =>
    let st := st.modifyMachine run.machine fun m => { m with bounces := m.bounces + 1 }
    let runner := st.machine run.machine
    let limit := runner.settings.maxBounces
    match st.world.canceled with
    | some reason => fail run waiting st ((Fault.canceled target.name reason).error Pos.none)
    | none =>
      if limit > 0 ∧ (runner.bounces : Int) > limit then
        fail run waiting st ((Fault.bounceLimit limit).error Pos.none)
      else
        let st := st.modifyMachine run.machine fun m => { m with budget := m.settings.stackBudget }
        .running ⟨st, machine, control, run, waiting⟩

/-- Takes a state one step further. -/
def step (s : State) : Progress :=
  match s.control.target? with
  | none => s.execute
  | some target =>
    let s := s.charge
    if s.isSpent then s.bounce target else s.execute

/-- Takes at most `n` steps; without a result if they are not enough. -/
def runWithin : Nat → State → Option (Store × Except Error Value)
  | 0, _ => none
  | n + 1, s =>
    match s.step with
    | .running s => runWithin n s
    | .finished st result => some (st, result)

end State

namespace Store

/-- The state in which a run of a node starts. -/
def start (st : Store) (m : Nat) (node : Node) (scope : ScopeId) : State :=
  let (st, run) := st.beginRun m
  ⟨st, m, .evaluate node scope (.final run.id), run, []⟩

/-- Runs a node on a machine, for at most `n` steps. -/
def runWithin (n : Nat) (st : Store) (m : Nat) (node : Node) (scope : ScopeId) :
    Option (Store × Except Error Value) :=
  (st.start m node scope).runWithin n

end Store

end Mycel
