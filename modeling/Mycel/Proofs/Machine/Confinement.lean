import Mycel.Proofs.Machine.Reach
import Mycel.Proofs.Machine.Runs

/-!
# One machine at work

A builtin can hand the work to another machine, by a continuation that was made there, and it can
tell the evaluation to stop. If neither is within reach (`Confined`), one machine does all the work
and nothing stops it: this is what `State.Calm` says, and steps keep it (`State.calm_execute`).
-/

namespace Mycel

variable {p : Action → Prop} {m : Nat}

/-! ## Machines of a store -/

namespace Store

theorem machine_modifyMachine {st : Store} (hm : m < st.machines.size) (f : Machine → Machine) :
    (st.modifyMachine m f).machine m = f (st.machine m) := by
  simp [machine, modifyMachine, Array.getElem_modify_self, hm]

/-- The machine with a run more. -/
theorem machine_beginRun {st : Store} (hm : m < st.machines.size) :
    (st.beginRun m).1.machine m =
      { st.machine m with
        depth := (st.machine m).depth + 1
        budget := (st.machine m).settings.stackBudget
        runId := if (st.machine m).depth > 0 then (st.machine m).runId else some st.runs
        steps := if (st.machine m).depth > 0 then (st.machine m).steps else 0
        bounces := if (st.machine m).depth > 0 then (st.machine m).bounces else 0 } :=
  machine_modifyMachine hm _

/-- The machine with a run less. -/
theorem machine_endRun {st : Store} (hm : m < st.machines.size) {run : Run}
    (hrun : run.machine = m) (failure : Option Error) :
    (st.endRun run failure).machine m =
      { st.machine m with
        depth := (st.machine m).depth - 1
        budget := run.saved.getD (st.machine m).budget } := by
  subst hrun
  simp only [endRun]
  rw [machine_modifyMachine]
  · split_ifs <;> rfl
  · split_ifs <;> exact hm

theorem settings_modifyMachine (st : Store) (i m : Nat) {f : Machine → Machine}
    (hf : ∀ x, (f x).settings = x.settings) :
    ((st.modifyMachine i f).machine m).settings = (st.machine m).settings := by
  simp only [machine, modifyMachine, Array.getElem?_modify]
  split_ifs
  · cases st.machines[m]? with
    | none => rfl
    | some x => exact hf x
  · rfl

theorem settings_beginRun (st : Store) (i m : Nat) :
    ((st.beginRun i).1.machine m).settings = (st.machine m).settings :=
  settings_modifyMachine st i m fun _ => rfl

theorem settings_endRun (st : Store) (run : Run) (failure : Option Error) (m : Nat) :
    ((st.endRun run failure).machine m).settings = (st.machine m).settings := by
  rw [endRun, settings_modifyMachine]
  · split_ifs <;> rfl
  · exact fun _ => rfl

theorem size_modifyMachine (st : Store) (i : Nat) (f : Machine → Machine) :
    (st.modifyMachine i f).machines.size = st.machines.size := by
  simp [modifyMachine]

theorem size_endRun (st : Store) (run : Run) (failure : Option Error) :
    (st.endRun run failure).machines.size = st.machines.size := by
  simp only [endRun, size_modifyMachine]
  split_ifs <;> rfl

theorem runs_endRun (st : Store) (run : Run) (failure : Option Error) :
    (st.endRun run failure).runs = st.runs := by
  simp only [endRun, modifyMachine]
  split_ifs <;> rfl

theorem canceled_endRun (st : Store) (run : Run) (failure : Option Error) :
    (st.endRun run failure).world.canceled = st.world.canceled := by
  simp only [endRun, modifyMachine]
  split_ifs <;> rfl

theorem heap_endRun (st : Store) (run : Run) (failure : Option Error) :
    (st.endRun run failure).world.heap = st.world.heap ∧
      (st.endRun run failure).buffers = st.buffers := by
  simp only [endRun]
  split_ifs <;> exact ⟨rfl, rfl⟩

end Store

/-! ## One machine -/

/-- The builtins with `p` use no other machine than `m`, and do not cancel the evaluation. -/
structure Confined (p : Action → Prop) (m : Nat) : Prop extends Provides p m where
  escape : ∀ machine k, p (.escape machine k) → machine = m
  stop : ¬ p .stop

/-- An effect that stays on machine `m` and does not cancel the evaluation. -/
def Effect.Stays (m : Nat) (st : Store) (e : Effect) : Prop :=
  e.machine m = m ∧ e.store.world.canceled = st.world.canceled

/-- The builtins that a host may have besides those that stop the evaluation or leave machine `m`.
-/
def Action.Tame (m : Nat) : Action → Prop
  | .stop => False
  | .inner hosted => hosted = false
  | .escape machine _ => machine = m
  | _ => True

theorem Action.tame_confined (m : Nat) : Confined (Action.Tame m) m where
  callcc _ _ := rfl
  host _ _ _ := rfl
  inner _ _ := ⟨trivial, trivial⟩
  hosted h := Bool.noConfusion h
  escape _ _ h := h
  stop h := h

/-- The builtins that only write. -/
def Action.Primitive : Action → Prop
  | .print | .println => True
  | _ => False

theorem Action.primitive_confined (m : Nat) : Confined Action.Primitive m where
  callcc h := h.elim
  host _ h := h.elim
  inner _ h := h.elim
  hosted h := h.elim
  escape _ _ h := h.elim
  stop h := h

/-- The builtins that write, and the one that tells the evaluation to stop. -/
def Action.Stoppable : Action → Prop
  | .print | .println | .stop => True
  | _ => False

theorem Action.Primitive.stoppable {action : Action} (h : action.Primitive) :
    action.Stoppable := by
  cases action with
  | print | println => trivial
  | _ => exact h.elim

namespace Store

variable {st : Store}

theorem stays_evaluate (scope : ScopeId) (k : Continuation) (node : Node) :
    (st.evaluate m scope k node).Stays m st := by
  cases node with
  | identifier pos name =>
    simp only [evaluate]
    split
    · exact ⟨rfl, rfl⟩
    · exact ⟨rfl, rfl⟩
  | assign pos target value =>
    cases target with
    | identifier => exact ⟨rfl, rfl⟩
    | _ => exact ⟨rfl, rfl⟩
  | lambda pos name params body => cases name <;> exact ⟨rfl, rfl⟩
  | missing => exact ⟨rfl, rfl⟩
  | _ => exact ⟨rfl, rfl⟩

theorem stays_apply (st : Store) (f : Value) (args : List Value) (k : Continuation) :
    (st.apply m f args k).Stays m st := by
  unfold apply
  split
  · exact ⟨rfl, rfl⟩
  · exact ⟨rfl, rfl⟩

theorem stays_obey (st : Store) (hc : Confined p m) {demand : Demand} (hd : demand.Only p) :
    (st.obey m demand).Stays m st := by
  cases demand with
  | resume k v => exact ⟨hc.escape _ _ hd.1.1, rfl⟩
  | apply f args number => exact stays_apply st f args _
  | _ => exact ⟨rfl, rfl⟩

theorem stays_consult (hc : Confined p m) (hs : st.Only p) {number : Nat} (hn : p (.host number))
    {notice : Notice} (h : notice.Only p) : (st.consult m notice).Stays m st :=
  stays_obey { st with world := (st.world.tell notice).1 } hc (World.only_tell hs.world hn h).2

end Store

theorem World.canceled_bindParams (w : World) (s : ScopeId) (params : List Text)
    (args : List Value) : (bindParams s w params args).canceled = w.canceled := by
  induction params generalizing w args with
  | nil => rfl
  | cons q ps ih => cases args <;> exact ih _ _

theorem World.canceled_addBuiltins (w : World) (s : ScopeId) (bs : List (String × Action)) :
    (w.addBuiltins s bs).canceled = w.canceled := by
  induction bs generalizing w with
  | nil => rfl
  | cons b bs ih => exact ih _

namespace Store

variable {st : Store}

/-- Only a continuation of the host can do more. -/
theorem stays_resume {v : Value} {k : Continuation}
    (hosted : ∀ number, k = .hosted number → (st.consult m (.applied number v)).Stays m st) :
    (st.resume m v k).Stays m st := by
  cases k with
  | final run => exact ⟨rfl, rfl⟩
  | assign pos name scope k =>
    simp only [resume]
    split
    · exact ⟨rfl, rfl⟩
    · exact ⟨rfl, rfl⟩
  | right pos o left k =>
    simp only [resume]
    split
    · exact ⟨rfl, rfl⟩
    · exact ⟨rfl, rfl⟩
  | branch whenTrue whenFalse scope k =>
    simp only [resume]
    split_ifs <;> exact ⟨rfl, rfl⟩
  | again f k => exact stays_apply st f [v] _
  | hosted number => exact hosted number rfl
  | _ => exact ⟨rfl, rfl⟩

theorem stays_writeFor (primitive : String) (t : Text) (k : Continuation) :
    (st.writeFor m primitive t k).Stays m st := by
  unfold writeFor
  split
  · exact ⟨rfl, rfl⟩
  · exact ⟨rfl, rfl⟩

theorem stays_perform (hc : Confined p m) (hs : st.Only p) {args : List Value}
    (ha : ∀ v ∈ args, v.Only p) {k : Continuation} (hk : k.Only p) {action : Action}
    (hact : action.Only p) : (st.perform m args k action).Stays m st := by
  cases action with
  | print | println => exact stays_writeFor _ _ k
  | halt | fail | inert => exact ⟨rfl, rfl⟩
  | count => exact ⟨rfl, rfl⟩
  | stop => exact absurd hact hc.stop
  | apply | twice => exact stays_apply st _ _ _
  | inner hosted =>
    simp only [perform]
    split
    · exact ⟨rfl, rfl⟩
    · refine ⟨rfl, ?_⟩
      show World.canceled (if _ then _ else _) = _
      split_ifs
      · rw [World.canceled_addBuiltins]
        exact World.canceled_addBuiltins _ _ _
      · exact World.canceled_addBuiltins _ _ _
  | callcc =>
    exact stays_apply { st with world := { st.world with fresh := st.world.fresh + 1 } } _ _ _
  | escape machine continuation => exact ⟨hc.escape _ _ hact.1, rfl⟩
  | host number => exact stays_consult hc hs hact ⟨ha, hc.host number hact k, hk⟩

end Store

/-- A step stays on its machine, unless a builtin or the host leaves it. -/
theorem Control.stays_execute_of {st : Store} {c : Control}
    (hosted : ∀ number v, c = .resume (.hosted number) v →
      (st.consult m (.applied number v)).Stays m st)
    (performed : ∀ action args k, c = .perform action args k →
      (st.perform m args k action).Stays m st)
    (reported : ∀ number result, c = .report number result →
      (st.consult m (.ended number result)).Stays m st) :
    (c.execute st m).Stays m st := by
  cases c with
  | evaluate node scope k => exact Store.stays_evaluate scope k node
  | sequence rest scope last k => cases rest <;> exact ⟨rfl, rfl⟩
  | arguments pos rest scope callee buffer filled k =>
    cases rest with
    | nil =>
      simp only [Control.execute]
      split
      · exact ⟨rfl, rfl⟩
      · exact ⟨rfl, rfl⟩
    | cons node rest => exact ⟨rfl, rfl⟩
  | bindings rest body scope k =>
    cases rest with
    | nil => exact ⟨rfl, rfl⟩
    | cons b rest =>
      simp only [Control.execute]
      split_ifs <;> exact ⟨rfl, rfl⟩
  | enter closure args k => exact ⟨rfl, World.canceled_bindParams _ _ _ _⟩
  | resume k v => exact Store.stays_resume fun number hk => hosted number v (by rw [hk])
  | perform action args k => exact performed action args k rfl
  | report number result => exact reported number result rfl

theorem Control.stays_execute (hc : Confined p m) {st : Store} (hs : st.Only p) {c : Control}
    (h : c.Only p) : (c.execute st m).Stays m st := by
  refine stays_execute_of ?_ ?_ ?_
  · rintro number v rfl
    exact Store.stays_consult hc hs h.1 h.2
  · rintro action args k rfl
    exact Store.stays_perform hc hs h.2.1 h.2.2 h.1
  · rintro number result rfl
    exact Store.stays_consult hc hs h.1 h.2

/-- A step of a program with these builtins stays on its machine, and the evaluation is not told
twice to stop. -/
theorem Control.execute_stoppable {st : Store} {c : Control} (h : c.Only Action.Stoppable) :
    (c.execute st m).machine m = m ∧ ∀ reason, st.world.canceled = some reason →
      (c.execute st m).store.world.canceled = some reason := by
  by_cases hstop : ∃ args k, c = .perform .stop args k
  · obtain ⟨args, k, rfl⟩ := hstop
    refine ⟨rfl, fun reason hr => ?_⟩
    show some (st.world.canceled.getD _) = some reason
    rw [hr, Option.getD_some]
  · have hstays : (c.execute st m).Stays m st := by
      refine stays_execute_of ?_ ?_ ?_
      · rintro number v rfl
        exact h.1.elim
      · rintro action args k rfl
        cases action with
        | print | println => exact Store.stays_writeFor _ _ k
        | stop => exact absurd ⟨args, k, rfl⟩ hstop
        | escape machine k => exact h.1.1.elim
        | _ => exact h.1.elim
      · rintro number result rfl
        exact h.1.elim
    exact ⟨hstays.1, fun reason hr => hstays.2.trans hr⟩

/-- A place where machine `m` does all the work and nobody wants it to stop. -/
structure Place.On (m : Nat) (x : Place) : Prop where
  machine : x.machine = m
  run : x.run.machine = m
  waiting : ∀ w ∈ x.waiting, w.run.machine = m
  bound : m < x.store.machines.size
  canceled : x.store.world.canceled = none

namespace Place.Unwinds

variable {x y : Place}

theorem on (h : x.Unwinds y) (hx : x.On m) : y.On m := by
  induction h with
  | refl => exact hx
  | keep id v _ ih =>
    refine ih ⟨hx.machine, hx.run, fun w hw => ?_, hx.bound, hx.canceled⟩
    obtain ⟨w', hw', rfl⟩ := List.mem_map.1 hw
    rw [← hx.waiting w' hw']
    unfold Suspended.keep
    split_ifs <;> rfl
  | pop failure _ ih =>
    obtain ⟨hs, hw⟩ := List.forall_mem_cons.1 hx.waiting
    refine ih ⟨hx.run, hs, hw, ?_, ?_⟩
    · rw [Store.size_endRun]
      exact hx.bound
    · rw [Store.canceled_endRun]
      exact hx.canceled

theorem settings (h : x.Unwinds y) (m : Nat) :
    (y.store.machine m).settings = (x.store.machine m).settings := by
  induction h with
  | refl => rfl
  | keep id v _ ih => exact ih
  | pop failure _ ih => rw [ih, Store.settings_endRun]

theorem runs (h : x.Unwinds y) : y.store.runs = x.store.runs := by
  induction h with
  | refl => rfl
  | keep id v _ ih => exact ih
  | pop failure _ ih => rw [ih, Store.runs_endRun]

end Place.Unwinds

/-- What machine `m` goes by. -/
def State.settings (m : Nat) (s : State) : Settings := (s.store.machine m).settings

/-- A state in which machine `m` does all the work, and every builtin within reach leaves it at
that. -/
structure State.Calm (p : Action → Prop) (m : Nat) (s : State) : Prop where
  only : s.Only p
  place : s.place.On m

namespace State

/-- The settings of a machine never change. -/
theorem settings_execute {s s' : State} (h : s.execute = .running s') (m : Nat) :
    s'.settings m = s.settings m := by
  have hm : (s.control.execute s.store s.machine).store.machine m = s.store.machine m := by
    simp only [Store.machine, Control.execute_machines]
  rcases s.execute_cases with ⟨st, node, scope, resumption, hst, -, -, he⟩ | hr
  · rw [he] at h
    cases h
    refine (st.settings_beginRun s.machine m).trans ?_
    simp only [settings, Store.machine, hst]
  · rw [h] at hr
    refine (Place.Unwinds.settings hr m).trans ?_
    dsimp only [settings]
    rw [hm]

/-- The step that ends everything begins no run. -/
theorem runs_of_finished {s : State} {st : Store} {result : Except Error Value}
    (h : s.execute = .finished st result) : st.runs = s.store.runs := by
  rcases s.execute_cases with ⟨_, _, _, _, -, -, -, he⟩ | hr
  · rw [he] at h
    cases h
  · rw [h] at hr
    obtain ⟨y, failure, hy, -, rfl⟩ := hr
    rw [Store.runs_endRun, hy.runs]
    exact Control.execute_runs ..

/-- What a step does leaves the work to machine `m`. -/
theorem on_execute (hc : Confined p m) {s : State} (hs : s.Calm p m) :
    Place.On m ⟨(s.control.execute s.store s.machine).store,
      (s.control.execute s.store s.machine).machine s.machine, s.run, s.waiting⟩ := by
  have hmach : s.machine = m := hs.place.machine
  have hstays := Control.stays_execute hc hs.only.store hs.only.control
  rw [hmach]
  refine ⟨hstays.1, hs.place.run, hs.place.waiting, ?_, hstays.2.trans hs.place.canceled⟩
  show m < (Control.execute _ _ _).store.machines.size
  rw [Control.execute_machines]
  exact hs.place.bound

/-- Whatever a step does, machine `m` goes on and nothing stops it. -/
theorem calm_execute (hc : Confined p m) {s s' : State} (hs : s.Calm p m)
    (h : s.execute = .running s') : s'.Calm p m := by
  have hmach : s.machine = m := hs.place.machine
  have ho := only_execute (hmach ▸ hc.toProvides) hs.only
  rw [h] at ho
  refine ⟨ho, ?_⟩
  have hon := on_execute hc hs
  rcases s.execute_cases with ⟨st, node, scope, resumption, -, -, heff, he⟩ | hr
  · rw [he] at h
    cases h
    rw [heff] at hon
    refine ⟨hmach, hmach, List.forall_mem_cons.2 ⟨hon.run, hon.waiting⟩, ?_, hon.canceled⟩
    show m < (st.modifyMachine _ _).machines.size
    rw [Store.size_modifyMachine]
    exact hon.bound
  · rw [h] at hr
    exact hr.on hon

end State

end Mycel
