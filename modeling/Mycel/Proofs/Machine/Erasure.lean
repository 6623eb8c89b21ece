import Mathlib.Tactic.SplitIfs
import Mycel.Machine.Step

/-!
# Meters are not looked at

Machines count steps and bounces and have budgets, and the ends of runs are logged. None of this is
looked at by what a step does: `Control.execute` commutes with replacing it (`execute_withMeters`).
`State.erase` forgets it altogether, and doing a step commutes with forgetting (`execute_erase`).
The steps of erased states are therefore those of an evaluator without guards, which the budgeted
one is compared with.
-/

namespace Mycel

/-! ## Replacing the meters -/

/-- Replaces what a store keeps about the machines, the log and the number of runs. -/
def Store.withMeters (st : Store) (machines : Array Machine) (log : Log) (runs : Nat) : Store :=
  { st with world := { st.world with log }, machines, runs }

/-- Changes the store of an effect. -/
def Effect.mapStore (f : Store → Store) : Effect → Effect
  | .advance st m control => .advance (f st) m control
  | .deliver st run v => .deliver (f st) run v
  | .idle st => .idle (f st)
  | .fail st e => .fail (f st) e
  | .nest st node scope resumption => .nest (f st) node scope resumption

namespace World

variable (w : World) (log : Log)

theorem addBuiltins_log (s : ScopeId) (bs : List (String × Action)) :
    addBuiltins { w with log } s bs = { w.addBuiltins s bs with log } := by
  induction bs generalizing w with
  | nil => rfl
  | cons b bs ih => exact ih (addBuiltin s w b)

theorem globals_log :
    globals { w with log } = ({ w.globals.1 with log }, w.globals.2) :=
  Prod.ext (addBuiltins_log w.root.1 log w.root.2 primitives) rfl

theorem bindParams_log (s : ScopeId) (params : List Text) (args : List Value) :
    bindParams s { w with log } params args = { bindParams s w params args with log } := by
  induction params generalizing w args with
  | nil => rfl
  | cons p ps ih =>
    cases args with
    | nil => exact ih (w.define s p (.bool false)) []
    | cons v vs => exact ih (w.define s p v) vs

theorem enter_log (c : Closure) (args : List Value) :
    enter { w with log } c args = ({ (w.enter c args).1 with log }, (w.enter c args).2) :=
  Prod.ext
    (bindParams_log { w with heap := w.heap.extend c.scope } log w.heap.next c.params args) rfl

end World

namespace Store

variable (st : Store) (machines : Array Machine) (log : Log) (runs : Nat)

theorem buffered_withMeters (buffer filled : Nat) :
    (st.withMeters machines log runs).buffered buffer filled = st.buffered buffer filled := rfl

theorem evaluate_withMeters (m : Nat) (scope : ScopeId) (k : Continuation) (node : Node) :
    (st.withMeters machines log runs).evaluate m scope k node =
      (st.evaluate m scope k node).mapStore (·.withMeters machines log runs) := by
  cases node with
  | identifier pos name =>
    simp only [evaluate, withMeters]
    cases st.world.heap.get? scope name <;> rfl
  | assign pos target value => cases target <;> rfl
  | lambda pos name params body => cases name <;> rfl
  | _ => rfl

theorem apply_withMeters (m : Nat) (f : Value) (args : List Value) (k : Continuation) :
    (st.withMeters machines log runs).apply m f args k =
      (st.apply m f args k).mapStore (·.withMeters machines log runs) := by
  unfold apply
  cases f.call? args k <;> rfl

theorem obey_withMeters (m : Nat) (demand : Demand) :
    (st.withMeters machines log runs).obey m demand =
      (st.obey m demand).mapStore (·.withMeters machines log runs) := by
  cases demand with
  | apply f args number => exact apply_withMeters st machines log runs m f args _
  | _ => rfl

theorem consult_withMeters (m : Nat) (notice : Notice) :
    (st.withMeters machines log runs).consult m notice =
      (st.consult m notice).mapStore (·.withMeters machines log runs) :=
  obey_withMeters { st with world := (st.world.tell notice).1 } machines log runs m
    (st.world.tell notice).2

theorem resume_withMeters (m : Nat) (v : Value) (k : Continuation) :
    (st.withMeters machines log runs).resume m v k =
      (st.resume m v k).mapStore (·.withMeters machines log runs) := by
  cases k with
  | assign pos name scope k =>
    simp only [resume, withMeters]
    cases st.world.heap.target? scope name <;> rfl
  | right pos o left k =>
    simp only [resume]
    cases o.apply left v <;> rfl
  | branch whenTrue whenFalse scope k =>
    simp only [resume]
    split_ifs <;> rfl
  | again f k => exact apply_withMeters st machines log runs m f [v] _
  | hosted number => exact consult_withMeters st machines log runs m _
  | _ => rfl

theorem writeFor_withMeters (m : Nat) (primitive : String) (t : Text) (k : Continuation) :
    (st.withMeters machines log runs).writeFor m primitive t k =
      (st.writeFor m primitive t k).mapStore (·.withMeters machines log runs) := by
  simp only [writeFor, withMeters]
  cases st.world.output.write? t <;> rfl

theorem perform_withMeters (m : Nat) (args : List Value) (k : Continuation) (action : Action) :
    (st.withMeters machines log runs).perform m args k action =
      (st.perform m args k action).mapStore (·.withMeters machines log runs) := by
  cases action with
  | print => exact writeFor_withMeters st machines log runs m _ _ k
  | println => exact writeFor_withMeters st machines log runs m _ _ k
  | apply => exact apply_withMeters st machines log runs m _ _ _
  | twice => exact apply_withMeters st machines log runs m _ _ _
  | inner hosted =>
    simp only [perform, withMeters, World.globals_log]
    cases Program.parse (args.headD (.bool false)).inspect with
    | error e => rfl
    | ok program =>
      cases hosted with
      | false => rfl
      | true =>
        simp only [World.addBuiltins_log]
        rfl
  | callcc =>
    exact apply_withMeters { st with world := { st.world with fresh := st.world.fresh + 1 } }
      machines log runs m _ _ _
  | host number => exact consult_withMeters st machines log runs m _
  | _ => rfl

end Store

theorem Control.execute_withMeters (st : Store) (machines : Array Machine) (log : Log)
    (runs m : Nat) (c : Control) :
    c.execute (st.withMeters machines log runs) m =
      (c.execute st m).mapStore (·.withMeters machines log runs) := by
  cases c with
  | evaluate node scope k => exact st.evaluate_withMeters machines log runs m scope k node
  | sequence rest scope last k => cases rest <;> rfl
  | arguments pos rest scope callee buffer filled k =>
    cases rest with
    | cons node rest => rfl
    | nil =>
      simp only [Control.execute, st.buffered_withMeters]
      cases callee.call? (st.buffered buffer filled) k <;> rfl
  | bindings rest body scope k =>
    cases rest with
    | nil => rfl
    | cons b rest =>
      obtain ⟨name, definition⟩ := b
      simp only [Control.execute]
      split_ifs <;> rfl
  | enter closure args k =>
    simp only [Control.execute, Store.withMeters, World.enter_log]
    rfl
  | resume k v => exact st.resume_withMeters machines log runs m v k
  | perform action args k => exact st.perform_withMeters machines log runs m args k action
  | report number result => exact st.consult_withMeters machines log runs m _

/-- The store of an effect. -/
def Effect.store : Effect → Store
  | .advance st _ _ => st
  | .deliver st _ _ => st
  | .idle st => st
  | .fail st _ => st
  | .nest st _ _ _ => st

theorem Effect.store_mapStore (f : Store → Store) (e : Effect) :
    (e.mapStore f).store = f e.store := by
  cases e <;> rfl

theorem Control.execute_store (st : Store) (m : Nat) (c : Control) :
    (c.execute st m).store =
      (c.execute st m).store.withMeters st.machines st.world.log st.runs := by
  have h := c.execute_withMeters st st.machines st.world.log st.runs m
  have h' := congrArg Effect.store h
  rwa [Effect.store_mapStore] at h'

theorem Control.execute_machines (st : Store) (m : Nat) (c : Control) :
    (c.execute st m).store.machines = st.machines := by
  rw [c.execute_store]
  rfl

theorem Control.execute_runs (st : Store) (m : Nat) (c : Control) :
    (c.execute st m).store.runs = st.runs := by
  rw [c.execute_store]
  rfl

/-! ## Erasure -/

/-- The store without machines and without a log. -/
def Store.erase (st : Store) : Store := st.withMeters #[] {} st.runs

/-- The run without the budget around it. -/
def Run.erase (run : Run) : Run := { run with saved := none }

def Suspended.erase (s : Suspended) : Suspended := { s with run := s.run.erase }

/-- The state without anything that is counted. -/
def State.erase (s : State) : State :=
  ⟨s.store.erase, s.machine, s.control, s.run.erase, s.waiting.map Suspended.erase⟩

def Progress.erase : Progress → Progress
  | .running s => .running s.erase
  | .finished st result => .finished st.erase result

namespace Store

theorem erase_endRun (st : Store) (run : Run) (failure : Option Error) :
    (st.endRun run failure).erase = st.erase := by
  simp only [endRun]
  split_ifs <;> rfl

theorem endRun_erase (st : Store) (run : Run) (failure : Option Error) :
    st.erase.endRun run.erase failure = (st.endRun run failure).erase := by
  simp only [endRun]
  split_ifs <;> rfl

end Store

namespace State

theorem fail_erase (run : Run) (waiting : List Suspended) (st : Store) (e : Error) :
    fail run.erase (waiting.map Suspended.erase) st.erase e = (fail run waiting st e).erase := by
  induction waiting generalizing run st with
  | nil =>
    simp only [fail, List.map_nil, Store.endRun_erase]
    rfl
  | cons s waiting ih =>
    obtain ⟨outer, resumption⟩ := s
    cases resumption with
    | value k =>
      simp only [fail, List.map_cons, Suspended.erase, Store.endRun_erase]
      exact ih outer _
    | host number =>
      simp only [fail, List.map_cons, Suspended.erase, Store.endRun_erase]
      rfl

theorem succeed_erase (run : Run) (waiting : List Suspended) (st : Store) (v : Value) :
    succeed run.erase (waiting.map Suspended.erase) st.erase v =
      (succeed run waiting st v).erase := by
  cases waiting with
  | nil =>
    simp only [succeed, List.map_nil, Store.endRun_erase]
    rfl
  | cons s waiting =>
    obtain ⟨outer, resumption⟩ := s
    cases resumption <;>
    · simp only [succeed, List.map_cons, Suspended.erase, Store.endRun_erase]
      rfl

theorem conclude_erase (run : Run) (waiting : List Suspended) (st : Store) :
    conclude run.erase (waiting.map Suspended.erase) st.erase =
      (conclude run waiting st).erase := by
  obtain ⟨id, machine, saved, result⟩ := run
  cases result with
  | none => exact fail_erase ⟨id, machine, saved, none⟩ waiting st _
  | some v => exact succeed_erase ⟨id, machine, saved, some v⟩ waiting st v

theorem keep_erase (s : Suspended) (id : Nat) (v : Value) :
    s.erase.keep id v = (s.keep id v).erase := by
  unfold Suspended.keep
  by_cases h : s.run.id = id
  · rw [if_pos h, if_pos (show s.erase.run.id = id from h)]
    rfl
  · rw [if_neg h, if_neg (show ¬ s.erase.run.id = id from h)]

theorem deliver_erase (run : Run) (waiting : List Suspended) (st : Store) (id : Nat) (v : Value) :
    deliver run.erase (waiting.map Suspended.erase) st.erase id v =
      (deliver run waiting st id v).erase := by
  have hk : (waiting.map Suspended.erase).map (·.keep id v) =
      (waiting.map (·.keep id v)).map Suspended.erase := by
    simp only [List.map_map, Function.comp_def, keep_erase]
  simp only [deliver, hk]
  split_ifs with h h' h'
  · exact succeed_erase run waiting st v
  · exact absurd h h'
  · exact absurd h' h
  · exact conclude_erase run _ st

theorem after_erase (run : Run) (machine : Nat) (waiting : List Suspended) (e : Effect) :
    after run.erase machine (waiting.map Suspended.erase) (e.mapStore Store.erase) =
      (after run machine waiting e).erase := by
  cases e with
  | advance st m control => rfl
  | deliver st id v => exact deliver_erase run waiting st id v
  | idle st => exact conclude_erase run waiting st
  | fail st e => exact fail_erase run waiting st e
  | nest st node scope resumption => rfl

/-- What a step does has nothing to do with what is counted. -/
theorem execute_erase (s : State) : s.erase.execute = s.execute.erase := by
  obtain ⟨st, machine, control, run, waiting⟩ := s
  have h : control.execute st.erase machine =
      (control.execute st machine).mapStore Store.erase := by
    rw [Store.erase, Control.execute_withMeters]
    have hr := control.execute_runs st machine
    generalize control.execute st machine = e at hr ⊢
    cases e <;>
    · simp only [Effect.store] at hr
      simp only [Effect.mapStore, Store.erase, hr]
  show after run.erase machine (waiting.map Suspended.erase) (control.execute st.erase machine) = _
  rw [h, after_erase]
  rfl

end State

end Mycel
