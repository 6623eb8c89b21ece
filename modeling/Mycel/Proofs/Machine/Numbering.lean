import Mycel.Proofs.Machine.Endings

/-!
# The numbers of machines

A store tells its machines apart by their numbers. Only continuations that are captured, and the
host, ever look at the number of a machine. A program that has none of them within reach
(`Action.Unaware`) runs on a machine as it runs on any other one that has the same counters:
`State.moved` puts a state on another machine, and steps commute with it (`State.step_moved`).
-/

namespace Mycel

/-- The builtins that have no use for the number of a machine. -/
def Action.Unaware : Action → Prop
  | .callcc | .escape _ _ | .host _ => False
  | .inner hosted => hosted = false
  | _ => True

theorem Action.unaware_provides (m : Nat) : Provides Action.Unaware m where
  callcc h := h.elim
  host _ h := h.elim
  inner _ _ := ⟨trivial, trivial⟩
  hosted h := Bool.noConfusion h

/-! ## What a step does -/

/-- The effect, with the next step on machine `m`. -/
def Effect.onMachine (m : Nat) : Effect → Effect
  | .advance st _ control => .advance st m control
  | e => e

namespace Store

variable (st : Store) (m m' : Nat)

theorem evaluate_onMachine (scope : ScopeId) (k : Continuation) (node : Node) :
    st.evaluate m' scope k node = (st.evaluate m scope k node).onMachine m' := by
  cases node with
  | identifier pos name =>
    simp only [evaluate]
    cases st.world.heap.get? scope name <;> rfl
  | assign pos target value => cases target <;> rfl
  | lambda pos name params body => cases name <;> rfl
  | _ => rfl

theorem apply_onMachine (f : Value) (args : List Value) (k : Continuation) :
    st.apply m' f args k = (st.apply m f args k).onMachine m' := by
  unfold apply
  cases f.call? args k <;> rfl

theorem resume_onMachine (v : Value) {k : Continuation} (hk : k.Only Action.Unaware) :
    st.resume m' v k = (st.resume m v k).onMachine m' := by
  cases k with
  | assign pos name scope k =>
    simp only [resume]
    cases st.world.heap.target? scope name <;> rfl
  | right pos o left k =>
    simp only [resume]
    cases o.apply left v <;> rfl
  | branch whenTrue whenFalse scope k =>
    simp only [resume]
    split_ifs <;> rfl
  | again f k => exact st.apply_onMachine m m' f [v] _
  | hosted number => exact hk.elim
  | _ => rfl

theorem writeFor_onMachine (primitive : String) (t : Text) (k : Continuation) :
    st.writeFor m' primitive t k = (st.writeFor m primitive t k).onMachine m' := by
  unfold writeFor
  cases st.world.output.write? t <;> rfl

theorem perform_onMachine (args : List Value) (k : Continuation) {action : Action}
    (ha : action.Only Action.Unaware) :
    st.perform m' args k action = (st.perform m args k action).onMachine m' := by
  cases action with
  | print => exact st.writeFor_onMachine m m' _ _ k
  | println => exact st.writeFor_onMachine m m' _ _ k
  | apply => exact st.apply_onMachine m m' _ _ _
  | twice => exact st.apply_onMachine m m' _ _ _
  | inner hosted =>
    simp only [perform]
    cases Program.parse (args.headD (.bool false)).inspect <;> rfl
  | callcc => exact ha.elim
  | escape machine continuation => exact ha.1.elim
  | host number => exact ha.elim
  | _ => rfl

end Store

theorem Control.execute_onMachine (st : Store) (m m' : Nat) {c : Control}
    (hc : c.Only Action.Unaware) : c.execute st m' = (c.execute st m).onMachine m' := by
  cases c with
  | evaluate node scope k => exact st.evaluate_onMachine m m' scope k node
  | sequence rest scope last k => cases rest <;> rfl
  | arguments pos rest scope callee buffer filled k =>
    cases rest with
    | cons node rest => rfl
    | nil =>
      simp only [Control.execute]
      cases callee.call? (st.buffered buffer filled) k <;> rfl
  | bindings rest body scope k =>
    cases rest with
    | nil => rfl
    | cons b rest =>
      obtain ⟨name, definition⟩ := b
      simp only [Control.execute]
      split_ifs <;> rfl
  | enter closure args k => rfl
  | resume k v => exact st.resume_onMachine m m' v hc.1
  | perform action args k => exact st.perform_onMachine m m' args k hc.1
  | report number result => exact hc.1.elim

/-! ## States on another machine -/

/-- The store in which machine `m'` has the counters of machine `m`, among other machines. -/
def Store.moved (m m' : Nat) (others : Array Machine) (st : Store) : Store :=
  { st with machines := others.modify m' fun _ => st.machine m }

/-- The run on another machine. -/
def Run.on (m' : Nat) (run : Run) : Run := { run with machine := m' }

def Suspended.on (m' : Nat) (s : Suspended) : Suspended := { s with run := s.run.on m' }

theorem Suspended.machine_keep (s : Suspended) (id : Nat) (v : Value) :
    (s.keep id v).run.machine = s.run.machine := by
  unfold keep
  split_ifs <;> rfl

/-- The state on machine `m'` instead of machine `m`, among other machines. -/
def State.moved (m m' : Nat) (others : Array Machine) (s : State) : State :=
  ⟨s.store.moved m m' others, m', s.control, s.run.on m', s.waiting.map (·.on m')⟩

def Progress.moved (m m' : Nat) (others : Array Machine) : Progress → Progress
  | .running s => .running (s.moved m m' others)
  | .finished st result => .finished (st.moved m m' others) result

/-- Machine `m` does all the work, and has all the runs under way. -/
structure Place.All (m : Nat) (x : Place) : Prop where
  bound : m < x.store.machines.size
  machine : x.machine = m
  run : x.run.machine = m
  waiting : ∀ w ∈ x.waiting, w.run.machine = m

namespace Place.All

variable {m : Nat} {x y : Place}

theorem modifyMachine {st : Store} {machine : Nat} {run : Run} {waiting : List Suspended}
    (h : All m ⟨st, machine, run, waiting⟩) (i : Nat) (f : Machine → Machine) :
    All m ⟨st.modifyMachine i f, machine, run, waiting⟩ :=
  ⟨(st.size_modifyMachine i f).symm ▸ h.bound, h.machine, h.run, h.waiting⟩

theorem keep {st : Store} {machine : Nat} {run : Run} {waiting : List Suspended}
    (h : All m ⟨st, machine, run, waiting⟩) (id : Nat) (v : Value) :
    All m ⟨st, machine, run, waiting.map (·.keep id v)⟩ := by
  refine ⟨h.bound, h.machine, h.run, fun w hw => ?_⟩
  obtain ⟨w', hw', rfl⟩ := List.mem_map.1 hw
  exact (w'.machine_keep id v).trans (h.waiting w' hw')

theorem pop {st : Store} {machine : Nat} {run : Run} {s : Suspended} {waiting : List Suspended}
    (h : All m ⟨st, machine, run, s :: waiting⟩) (failure : Option Error) :
    All m ⟨st.endRun run failure, run.machine, s.run, waiting⟩ := by
  obtain ⟨hs, hw⟩ := List.forall_mem_cons.1 h.waiting
  exact ⟨(st.size_endRun run failure).symm ▸ h.bound, h.run, hs, hw⟩

theorem unwinds (hx : x.All m) (h : x.Unwinds y) : y.All m := by
  induction h with
  | refl => exact hx
  | keep id v _ ih => exact ih (hx.keep id v)
  | pop failure _ ih => exact ih (hx.pop failure)

end Place.All

/-- Machine `m` does all the work, if there is still work to do. -/
def Progress.All (m : Nat) : Progress → Prop
  | .running s => s.place.All m
  | .finished _ _ => True

theorem Place.Reaches.all {m : Nat} {x : Place} {q : Progress} (h : x.Reaches q) (hx : x.All m) :
    q.All m := by
  cases q with
  | running s => exact hx.unwinds h
  | finished st result => trivial

namespace Store

variable {st : Store} {m m' : Nat} {others : Array Machine}

theorem machine_moved (hm' : m' < others.size) :
    (st.moved m m' others).machine m' = st.machine m := by
  simp only [moved, machine, Array.getElem?_modify, if_true, Array.getElem?_eq_getElem hm',
    Option.map_some, Option.getD_some]

theorem moved_modifyMachine (st : Store) (m' : Nat) (others : Array Machine)
    (hm : m < st.machines.size) (f : Machine → Machine) :
    (st.modifyMachine m f).moved m m' others = (st.moved m m' others).modifyMachine m' f := by
  have hmachines : others.modify m' (fun _ => (st.modifyMachine m f).machine m) =
      (others.modify m' fun _ => st.machine m).modify m' f := by
    refine Array.ext_getElem? fun j => ?_
    simp only [machine_modifyMachine hm, Array.getElem?_modify]
    split_ifs
    · cases others[j]? <;> rfl
    · rfl
  exact congrArg (Store.mk st.world · st.buffers st.runs) hmachines

theorem moved_beginRun (hm : m < st.machines.size) (hm' : m' < others.size) :
    ((st.beginRun m).1.moved m m' others, (st.beginRun m).2.on m') =
      (st.moved m m' others).beginRun m' := by
  simp only [beginRun, machine_moved hm']
  refine Prod.ext ?_ rfl
  exact congrArg (fun x : Store => { x with runs := st.runs + 1 })
    (st.moved_modifyMachine m' others hm _)

theorem moved_endRun {run : Run} (hm : m < st.machines.size) (hm' : m' < others.size)
    (hrun : run.machine = m) (failure : Option Error) :
    (st.endRun run failure).moved m m' others =
      (st.moved m m' others).endRun (run.on m') failure := by
  subst hrun
  have hmachine : (st.moved run.machine m' others).machine (run.on m').machine =
      st.machine run.machine := machine_moved hm'
  simp only [endRun, hmachine]
  split_ifs
  · exact moved_modifyMachine { st with
      world := { st.world with
        log := st.world.log.write (runLine (st.machine run.machine) failure) } } m' others hm _
  · exact st.moved_modifyMachine m' others hm _

end Store

namespace State

variable {m m' : Nat} {others : Array Machine} {run : Run} {waiting : List Suspended} {st : Store}
  {machine : Nat}

theorem fail_moved (hm' : m' < others.size) (h : Place.All m ⟨st, machine, run, waiting⟩)
    (e : Error) : fail (run.on m') (waiting.map (·.on m')) (st.moved m m' others) e =
      (fail run waiting st e).moved m m' others := by
  induction waiting generalizing run st machine with
  | nil =>
    simp only [fail, List.map_nil, ← Store.moved_endRun h.bound hm' h.run]
    rfl
  | cons s waiting ih =>
    have hpop := h.pop (some e)
    obtain ⟨outer, resumption⟩ := s
    cases resumption with
    | value k =>
      simp only [fail, List.map_cons, Suspended.on, ← Store.moved_endRun h.bound hm' h.run]
      exact ih hpop
    | host number =>
      simp only [fail, List.map_cons, Suspended.on, ← Store.moved_endRun h.bound hm' h.run]
      rfl

theorem succeed_moved (hm' : m' < others.size) (h : Place.All m ⟨st, machine, run, waiting⟩)
    (v : Value) : succeed (run.on m') (waiting.map (·.on m')) (st.moved m m' others) v =
      (succeed run waiting st v).moved m m' others := by
  cases waiting with
  | nil =>
    simp only [succeed, List.map_nil, ← Store.moved_endRun h.bound hm' h.run]
    rfl
  | cons s waiting =>
    obtain ⟨outer, resumption⟩ := s
    cases resumption <;>
    · simp only [succeed, List.map_cons, Suspended.on, ← Store.moved_endRun h.bound hm' h.run]
      rfl

theorem conclude_moved (hm' : m' < others.size) (h : Place.All m ⟨st, machine, run, waiting⟩) :
    conclude (run.on m') (waiting.map (·.on m')) (st.moved m m' others) =
      (conclude run waiting st).moved m m' others := by
  obtain ⟨id, number, saved, result⟩ := run
  cases result with
  | none => exact fail_moved hm' h _
  | some v => exact succeed_moved hm' h v

theorem deliver_moved (hm' : m' < others.size) (h : Place.All m ⟨st, machine, run, waiting⟩)
    (id : Nat) (v : Value) :
    deliver (run.on m') (waiting.map (·.on m')) (st.moved m m' others) id v =
      (deliver run waiting st id v).moved m m' others := by
  have hkeep : ∀ s : Suspended, (s.on m').keep id v = (s.keep id v).on m' := by
    intro s
    unfold Suspended.keep
    by_cases hs : s.run.id = id
    · rw [if_pos hs, if_pos (show (s.on m').run.id = id from hs)]
      rfl
    · rw [if_neg hs, if_neg (show ¬ (s.on m').run.id = id from hs)]
  have hmap : (waiting.map (·.on m')).map (·.keep id v) =
      (waiting.map (·.keep id v)).map (·.on m') := by
    simp only [List.map_map, Function.comp_def, hkeep]
  simp only [deliver, hmap]
  rw [apply_ite (Progress.moved m m' others)]
  exact ite_congr rfl (fun _ => succeed_moved hm' h v) fun _ => conclude_moved hm' (h.keep id v)

/-- What a step does is the same on both machines. -/
theorem execute_moved {s : State} (hm' : m' < others.size) (hplace : s.place.All m)
    (honly : s.control.Only Action.Unaware) :
    (s.moved m m' others).execute = s.execute.moved m m' others := by
  obtain ⟨st, machine, control, run, waiting⟩ := s
  obtain rfl : machine = m := hplace.machine
  have hmoved : st.moved machine m' others = st.withMeters
      (others.modify m' fun _ => st.machine machine) st.world.log st.runs := rfl
  have hstore := control.execute_store st machine
  show after (run.on m') m' (waiting.map (·.on m'))
      (control.execute (st.moved machine m' others) m') =
    (after run machine waiting (control.execute st machine)).moved machine m' others
  rw [hmoved, Control.execute_withMeters, control.execute_onMachine st machine m' honly]
  generalize control.execute st machine = e at hstore ⊢
  -- The effect leaves the machines, the log and the number of runs as they are.
  have hsame : e.store.withMeters (others.modify m' fun _ => st.machine machine) st.world.log
      st.runs = e.store.moved machine m' others := by
    rw [hstore]
    rfl
  have hall : Place.All machine ⟨e.store, machine, run, waiting⟩ := by
    refine ⟨?_, rfl, hplace.run, hplace.waiting⟩
    rw [hstore]
    exact hplace.bound
  cases e with
  | advance st' machine' control' =>
    exact congrArg (fun x => Progress.running ⟨x, m', control', run.on m', _⟩) hsame
  | deliver st' id v =>
    have h := deliver_moved hm' hall id v
    rwa [← hsame] at h
  | idle st' =>
    have h := conclude_moved hm' hall
    rwa [← hsame] at h
  | fail st' e =>
    have h := fail_moved hm' hall e
    rwa [← hsame] at h
  | nest st' node scope resumption =>
    have h := Store.moved_beginRun hall.bound hm'
    simp only [Effect.store] at hsame h
    simp only [Effect.onMachine, Effect.mapStore, after, nest, hsame, ← h]
    rfl

theorem charge_moved {s : State} (hplace : s.place.All m) :
    (s.moved m m' others).charge = s.charge.moved m m' others := by
  obtain ⟨st, machine, control, run, waiting⟩ := s
  obtain rfl : machine = m := hplace.machine
  exact congrArg (fun x => State.mk x m' control _ _)
    (st.moved_modifyMachine m' others hplace.bound _).symm

theorem isSpent_moved {s : State} (hm' : m' < others.size) (hplace : s.place.All m) :
    (s.moved m m' others).isSpent = s.isSpent := by
  have h : (s.moved m m' others).store.machine (s.moved m m' others).machine =
      s.store.machine s.machine := by
    rw [show s.machine = m from hplace.machine]
    exact Store.machine_moved hm'
  simp only [isSpent, h]

theorem bounce_moved {s : State} (hm' : m' < others.size) (hplace : s.place.All m)
    (target : Target) :
    (s.moved m m' others).bounce target = (s.bounce target).moved m m' others := by
  obtain ⟨st, machine, control, run, waiting⟩ := s
  obtain rfl : run.machine = m := hplace.run
  have hcounted := st.moved_modifyMachine m' others hplace.bound
    fun x => { x with bounces := x.bounces + 1 }
  have hall := hplace.modifyMachine run.machine fun x => { x with bounces := x.bounces + 1 }
  have hrenewed := Store.moved_modifyMachine _ m' others hall.bound
    fun x => { x with budget := x.settings.stackBudget }
  have hcanceled (st : Store) : (st.moved run.machine m' others).world.canceled =
      st.world.canceled := rfl
  have hmachine (st : Store) : (st.moved run.machine m' others).machine m' =
      st.machine run.machine := Store.machine_moved hm'
  have hrun : (run.on m').machine = m' := rfl
  simp only [moved, bounce, hrun, ← hcounted, hcanceled, hmachine]
  split
  · exact fail_moved hm' hall _
  · rw [apply_ite (Progress.moved run.machine m' others), ← hrenewed]
    exact ite_congr rfl (fun _ => fail_moved hm' hall _) fun _ => rfl

theorem all_charge {s : State} (hplace : s.place.All m) : s.charge.place.All m :=
  hplace.modifyMachine s.machine _

/-- A step is the same on both machines. -/
theorem step_moved {s : State} (hm' : m' < others.size) (hplace : s.place.All m)
    (honly : s.control.Only Action.Unaware) :
    (s.moved m m' others).step = s.step.moved m m' others := by
  have hcharged := all_charge hplace
  have hcontrol : (s.moved m m' others).control = s.control := rfl
  unfold step
  rw [hcontrol]
  split
  · exact execute_moved hm' hplace honly
  · dsimp only
    rw [charge_moved hplace, isSpent_moved (s := s.charge) hm' hcharged]
    split_ifs
    · exact bounce_moved hm' hcharged _
    · exact execute_moved (s := s.charge) hm' hcharged honly

/-! ## Runs on another machine -/

theorem all_execute {s : State} (hplace : s.place.All m)
    (honly : s.control.Only Action.Unaware) : s.execute.All m := by
  have hmachine : s.machine = m := hplace.machine
  have hbound : m < (s.control.execute s.store s.machine).store.machines.size := by
    rw [Control.execute_machines]
    exact hplace.bound
  -- The step would be the same on any machine, so it stays on this one.
  have hstays : (s.control.execute s.store s.machine).machine s.machine = m := by
    rw [hmachine, s.control.execute_onMachine s.store m m honly]
    cases s.control.execute s.store m <;> rfl
  rcases s.execute_cases with ⟨st, node, scope, resumption, -, -, heffect, he⟩ | hr
  · rw [heffect] at hbound
    rw [he]
    refine ⟨?_, hmachine, hmachine, List.forall_mem_cons.2 ⟨hplace.run, hplace.waiting⟩⟩
    exact (st.size_modifyMachine _ _).symm ▸ hbound
  · exact hr.all ⟨hbound, hstays, hplace.run, hplace.waiting⟩

theorem all_bounce {s : State} (hplace : s.place.All m) (target : Target) :
    (s.bounce target).All m := by
  obtain ⟨st, machine, control, run, waiting⟩ := s
  have hall := hplace.modifyMachine run.machine fun x => { x with bounces := x.bounces + 1 }
  have hfail : ∀ e, (fail run waiting _ e).All m := fun e =>
    Place.Reaches.all (x := ⟨_, machine, run, waiting⟩) (Place.reaches_fail e) hall
  simp only [bounce]
  split
  · exact hfail _
  · split_ifs
    · exact hfail _
    · exact hall.modifyMachine run.machine _

theorem all_step {s : State} (hplace : s.place.All m) (honly : s.control.Only Action.Unaware) :
    s.step.All m := by
  unfold step
  split
  · exact all_execute hplace honly
  · dsimp only
    split_ifs
    · exact all_bounce (all_charge hplace) _
    · exact all_execute (s := s.charge) (all_charge hplace) honly

/-- A run is the same on both machines. -/
theorem runWithin_moved {s : State} (hm' : m' < others.size) (hplace : s.place.All m)
    (honly : s.Only Action.Unaware) (n : Nat) :
    (s.moved m m' others).runWithin n =
      (s.runWithin n).map fun x => (x.1.moved m m' others, x.2) := by
  induction n generalizing s with
  | zero => rfl
  | succ n ih =>
    have honly' := only_step (Action.unaware_provides s.machine) honly
    have hplace' := all_step hplace honly.control
    simp only [runWithin, step_moved hm' hplace honly.control]
    cases hstep : s.step with
    | running s' =>
      rw [hstep] at honly' hplace'
      exact ih hplace' honly'
    | finished st result => rfl

end State

end Mycel
