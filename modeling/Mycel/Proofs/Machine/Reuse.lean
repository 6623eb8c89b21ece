import Mycel.Proofs.Machine.Accounting
import Mycel.Proofs.Machine.Numbering

/-!
# Machines that are used again

A machine can be asked for a run at any time, also by a builtin in the middle of another run on the
same machine. `Machine.Restored` says what such a run leaves behind: the machine is as deep in runs
as before, and if it was in the middle of one, that one has its budget and its number back and the
counters have only grown. `Place.Since` is the invariant behind it. It looks at one machine and at
the runs that are under way, whatever else the builtins, the host and other machines do.

A run inside another one takes the steps that it would take alone, and then the other run gets what
it leaves and its result (`State.iterate_inside`). A run that is inside no other one finds nothing
of the runs before it: it is the run of a machine that is new (`Store.start_refresh`).
-/

namespace Mycel

/-- What can have become of a machine since a run found it. If it was in the middle of another run,
its counters are still about that one, and have only grown. -/
structure Machine.Since (found now : Machine) : Prop where
  settings : now.settings = found.settings
  runId : 0 < found.depth → now.runId = found.runId
  steps : 0 < found.depth → found.steps ≤ now.steps
  bounces : 0 < found.depth → found.bounces ≤ now.bounces

/-- What a run leaves of the machine that it found. -/
structure Machine.Restored (found left : Machine) : Prop extends found.Since left where
  depth : left.depth = found.depth
  budget : 0 < found.depth → left.budget = found.budget

namespace Store

variable {st : Store} {m i : Nat}

theorem machine_modifyMachine_of_ne (h : i ≠ m) (f : Machine → Machine) :
    (st.modifyMachine i f).machine m = st.machine m := by
  simp [machine, modifyMachine, Array.getElem?_modify, h]

theorem machine_endRun_of_ne (st : Store) {run : Run} (h : run.machine ≠ m)
    (failure : Option Error) : (st.endRun run failure).machine m = st.machine m := by
  rw [endRun, machine_modifyMachine_of_ne h]
  split_ifs <;> rfl

end Store

/-! ## Runs under way -/

/-- The number of runs under way on machine `m`. -/
def Place.layers (m : Nat) (x : Place) : Nat :=
  (x.run.machine :: x.waiting.map (·.run.machine)).count m

/-- Of a run and those around it, the outermost one is on machine `m` and gives back a budget. -/
def Run.Anchored (m : Nat) (saved : Option Int) : Run → List Suspended → Prop
  | run, [] => run.machine = m ∧ run.saved = saved
  | _, s :: waiting => s.run.Anchored m saved waiting

namespace Suspended

theorem saved_keep (s : Suspended) (id : Nat) (v : Value) :
    (s.keep id v).run.saved = s.run.saved := by
  unfold keep
  split_ifs <;> rfl

theorem map_machine_keep (waiting : List Suspended) (id : Nat) (v : Value) :
    (waiting.map (·.keep id v)).map (·.run.machine) = waiting.map (·.run.machine) := by
  simp only [List.map_map, Function.comp_def, machine_keep]

end Suspended

namespace Run.Anchored

variable {m : Nat} {saved : Option Int} {run : Run} {waiting : List Suspended}

theorem mem (h : run.Anchored m saved waiting) :
    m ∈ run.machine :: waiting.map (·.run.machine) := by
  induction waiting generalizing run with
  | nil => exact List.mem_singleton.2 h.1.symm
  | cons s waiting ih => exact List.mem_cons_of_mem _ (ih h)

theorem congr {run' : Run} (h : run.Anchored m saved waiting) (hm : run'.machine = run.machine)
    (hs : run'.saved = run.saved) : run'.Anchored m saved waiting := by
  cases waiting with
  | nil => exact ⟨hm.trans h.1, hs.trans h.2⟩
  | cons s waiting => exact h

theorem keep (h : run.Anchored m saved waiting) (id : Nat) (v : Value) :
    run.Anchored m saved (waiting.map (·.keep id v)) := by
  induction waiting generalizing run with
  | nil => exact h
  | cons s waiting ih => exact (ih h).congr (s.machine_keep id v) (s.saved_keep id v)

end Run.Anchored

/-- Machine `m` was found as `found` by the outermost run under way. -/
structure Place.Since (m : Nat) (found : Machine) (x : Place) : Prop where
  bound : m < x.store.machines.size
  depth : (x.store.machine m).depth = found.depth + x.layers m
  anchored : x.run.Anchored m (if found.depth > 0 then some found.budget else none) x.waiting
  machine : found.Since (x.store.machine m)

namespace Place

variable {m : Nat} {found : Machine} {x y : Place}

theorem Since.layers_pos (h : x.Since m found) : 0 < x.layers m :=
  List.count_pos_iff.2 h.anchored.mem

/-- Only the machines and the runs matter. -/
theorem Since.congr (h : x.Since m found) (hst : y.store.machines = x.store.machines)
    (hrun : y.run = x.run) (hw : y.waiting = x.waiting) : y.Since m found := by
  have hm : y.store.machine m = x.store.machine m := by
    simp only [Store.machine, hst]
  refine ⟨hst ▸ h.bound, ?_, ?_, ?_⟩
  · rw [hm, layers, hrun, hw]
    exact h.depth
  · rw [hrun, hw]
    exact h.anchored
  · rw [hm]
    exact h.machine

/-- Machines may count on. -/
theorem Since.modifyMachine {st : Store} {machine : Nat} {run : Run} {waiting : List Suspended}
    (h : Since m found ⟨st, machine, run, waiting⟩) (i : Nat) {f : Machine → Machine}
    (hdepth : ∀ x, (f x).depth = x.depth) (hf : ∀ x : Machine, found.Since x → found.Since (f x)) :
    Since m found ⟨st.modifyMachine i f, machine, run, waiting⟩ := by
  have hbound : m < (st.modifyMachine i f).machines.size := by
    rw [Store.size_modifyMachine]
    exact h.bound
  by_cases hi : i = m
  · subst hi
    refine ⟨hbound, ?_, h.anchored, ?_⟩
    · rw [Store.machine_modifyMachine h.bound, hdepth]
      exact h.depth
    · rw [Store.machine_modifyMachine h.bound]
      exact hf _ h.machine
  · have hm : (st.modifyMachine i f).machine m = st.machine m :=
      Store.machine_modifyMachine_of_ne hi f
    refine ⟨hbound, ?_, h.anchored, ?_⟩
    · rw [hm]
      exact h.depth
    · rw [hm]
      exact h.machine

theorem Since.keep {st : Store} {machine : Nat} {run : Run} {waiting : List Suspended}
    (h : Since m found ⟨st, machine, run, waiting⟩) (id : Nat) (v : Value) :
    Since m found ⟨st, machine, run, waiting.map (·.keep id v)⟩ := by
  refine ⟨h.bound, ?_, h.anchored.keep id v, h.machine⟩
  rw [layers, Suspended.map_machine_keep]
  exact h.depth

/-- The end of a run inside another one takes a layer off its machine. -/
theorem Since.pop {st : Store} {machine : Nat} {run : Run} {s : Suspended}
    {waiting : List Suspended} (h : Since m found ⟨st, machine, run, s :: waiting⟩)
    (failure : Option Error) :
    Since m found ⟨st.endRun run failure, run.machine, s.run, waiting⟩ := by
  have hbound : m < (st.endRun run failure).machines.size := by
    rw [Store.size_endRun]
    exact h.bound
  have hdepth : (st.machine m).depth = found.depth +
      (run.machine :: (s :: waiting).map (·.run.machine)).count m := h.depth
  by_cases hrun : run.machine = m
  · have hm := Store.machine_endRun h.bound hrun failure
    refine ⟨hbound, ?_, h.anchored, ?_⟩
    · rw [hrun, List.count_cons_self] at hdepth
      rw [hm]
      exact Nat.sub_eq_of_eq_add hdepth
    · rw [hm]
      exact ⟨h.machine.settings, h.machine.runId, h.machine.steps, h.machine.bounces⟩
  · have hm := st.machine_endRun_of_ne hrun failure
    refine ⟨hbound, ?_, h.anchored, ?_⟩
    · rw [List.count_cons_of_ne hrun] at hdepth
      rw [hm]
      exact hdepth
    · rw [hm]
      exact h.machine

/-- A run that begins inside another one puts a layer on its machine. On a machine that is at work
already, nothing is counted anew. -/
theorem Since.begin {st : Store} {machine : Nat} {run : Run} {waiting : List Suspended}
    (h : Since m found ⟨st, machine, run, waiting⟩) (i : Nat) (resumption : Resumption) :
    Since m found ⟨(st.beginRun i).1, i, (st.beginRun i).2, ⟨run, resumption⟩ :: waiting⟩ := by
  have hbound : m < (st.beginRun i).1.machines.size := by
    rw [show (st.beginRun i).1.machines.size = st.machines.size from st.size_modifyMachine i _]
    exact h.bound
  have hdepth : (st.machine m).depth =
      found.depth + (run.machine :: waiting.map (·.run.machine)).count m := h.depth
  by_cases hi : i = m
  · subst hi
    have hm := Store.machine_beginRun h.bound
    -- A run is under way on the machine, so this one starts nothing anew.
    have hpos : (st.machine i).depth > 0 := by
      have hlayers : 0 < (run.machine :: waiting.map (·.run.machine)).count i := h.layers_pos
      omega
    rw [if_pos hpos, if_pos hpos, if_pos hpos] at hm
    refine ⟨hbound, ?_, h.anchored, ?_⟩
    · rw [hm]
      show (st.machine i).depth + 1 =
        found.depth + (i :: run.machine :: waiting.map (·.run.machine)).count i
      rw [List.count_cons_self, hdepth, Nat.add_assoc]
    · rw [hm]
      exact ⟨h.machine.settings, h.machine.runId, h.machine.steps, h.machine.bounces⟩
  · have hm : (st.beginRun i).1.machine m = st.machine m :=
      Store.machine_modifyMachine_of_ne hi _
    refine ⟨hbound, ?_, h.anchored, ?_⟩
    · rw [hm]
      show _ = found.depth + (i :: run.machine :: waiting.map (·.run.machine)).count m
      rw [List.count_cons_of_ne hi, hdepth]
    · rw [hm]
      exact h.machine

/-- The end of the outermost run leaves the machine as it was found. -/
theorem Since.restored (h : x.Since m found) (hw : x.waiting = []) (failure : Option Error) :
    found.Restored ((x.store.endRun x.run failure).machine m) := by
  obtain ⟨st, machine, run, waiting⟩ := x
  obtain rfl : waiting = [] := hw
  obtain ⟨hrun, hsaved⟩ : run.machine = m ∧ run.saved = _ := h.anchored
  have hdepth : (st.machine m).depth = found.depth + 1 := by
    simpa [layers, hrun] using h.depth
  rw [Store.machine_endRun h.bound hrun]
  have hsince : found.Since (st.machine m) := h.machine
  refine ⟨⟨hsince.settings, hsince.runId, hsince.steps, hsince.bounces⟩, ?_, fun hpos => ?_⟩
  · exact Nat.sub_eq_of_eq_add hdepth
  · show run.saved.getD _ = found.budget
    rw [hsaved, if_pos hpos]
    rfl

theorem Unwinds.since (h : x.Unwinds y) (hx : x.Since m found) : y.Since m found := by
  induction h with
  | refl => exact hx
  | keep id v _ ih => exact ih (hx.keep id v)
  | pop failure _ ih => exact ih (hx.pop failure)

end Place

/-- Machine `m` is as the outermost run found it, or will be. -/
def Progress.Since (m : Nat) (found : Machine) : Progress → Prop
  | .running s => s.place.Since m found
  | .finished st _ => m < st.machines.size ∧ found.Restored (st.machine m)

theorem Place.Reaches.since {m : Nat} {found : Machine} {x : Place} {q : Progress}
    (h : x.Reaches q) (hx : x.Since m found) : q.Since m found := by
  cases q with
  | running s => exact Unwinds.since h hx
  | finished st result =>
    obtain ⟨y, failure, hy, hw, rfl⟩ := h
    exact ⟨(y.store.size_endRun y.run failure).symm ▸ (hy.since hx).bound,
      (hy.since hx).restored hw failure⟩

namespace State

variable {m : Nat} {found : Machine} {s : State}

theorem since_execute (hs : s.place.Since m found) : s.execute.Since m found := by
  rcases s.execute_cases with ⟨st, node, scope, resumption, hst, -, -, he⟩ | hr
  · have hplace : Place.Since m found ⟨st, s.machine, s.run, s.waiting⟩ := hs.congr hst rfl rfl
    rw [he]
    exact hplace.begin s.machine resumption
  · exact hr.since (hs.congr (Control.execute_machines ..) rfl rfl)

theorem since_charge (hs : s.place.Since m found) : s.charge.place.Since m found := by
  refine Place.Since.modifyMachine hs s.machine (fun _ => rfl) fun x hx => ?_
  exact ⟨hx.settings, hx.runId, fun h => Nat.le_succ_of_le (hx.steps h), hx.bounces⟩

theorem since_bounce (hs : s.place.Since m found) (target : Target) :
    (s.bounce target).Since m found := by
  obtain ⟨st, machine, control, run, waiting⟩ := s
  have hcounted := Place.Since.modifyMachine hs run.machine
    (f := fun m => { m with bounces := m.bounces + 1 }) (fun _ => rfl) fun x hx =>
      ⟨hx.settings, hx.runId, hx.steps, fun h => Nat.le_succ_of_le (hx.bounces h)⟩
  have hfail : ∀ e, (fail run waiting _ e).Since m found := fun e =>
    Place.Reaches.since (x := ⟨_, machine, run, waiting⟩) (Place.reaches_fail e) hcounted
  simp only [bounce]
  split
  · exact hfail _
  · split_ifs
    · exact hfail _
    · exact hcounted.modifyMachine run.machine (fun _ => rfl) fun x hx =>
        ⟨hx.settings, hx.runId, hx.steps, hx.bounces⟩

theorem since_step (hs : s.place.Since m found) : s.step.Since m found := by
  unfold step
  split
  · exact since_execute hs
  · dsimp only
    split_ifs
    · exact since_bounce (since_charge hs) _
    · exact since_execute (since_charge hs)

end State

namespace Store

variable {st st' : Store} {m : Nat} {node : Node} {scope : ScopeId} {result : Except Error Value}

theorem since_start (hm : m < st.machines.size) (node : Node) (scope : ScopeId) :
    (st.start m node scope).place.Since m (st.machine m) := by
  have hmachine : (st.start m node scope).place.store.machine m = _ := machine_beginRun hm
  refine ⟨?_, ?_, ⟨rfl, rfl⟩, ?_⟩
  · show m < (st.modifyMachine m _).machines.size
    rw [size_modifyMachine]
    exact hm
  · rw [hmachine]
    show (st.machine m).depth + 1 = (st.machine m).depth + List.count m [m]
    rw [List.count_singleton_self]
  · rw [hmachine]
    refine ⟨rfl, fun h => if_pos h, fun h => ?_, fun h => ?_⟩
    · exact Nat.le_of_eq (if_pos h).symm
    · exact Nat.le_of_eq (if_pos h).symm

/-- However a run ends, it leaves its machine as it found it. -/
theorem runWithin_restored (hm : m < st.machines.size) {n : Nat}
    (h : st.runWithin n m node scope = some (st', result)) :
    m < st'.machines.size ∧ (st.machine m).Restored (st'.machine m) :=
  State.runWithin_keeps (P := Progress.Since m (st.machine m)) (fun _ => State.since_step)
    (since_start hm node scope) h

end Store

/-! ## Runs inside other runs -/

/-- A suspended run, whatever result it may have been given. -/
def Suspended.forget (s : Suspended) : Suspended := { s with run := { s.run with result := none } }

theorem Suspended.forget_keep (s : Suspended) (id : Nat) (v : Value) :
    (s.keep id v).forget = s.forget := by
  unfold keep
  split_ifs <;> rfl

/-- A state in the middle of other runs. -/
def State.inside (x : State) (around : List Suspended) : State :=
  { x with waiting := x.waiting ++ around }

/-- What becomes of a suspended run when the run inside it, on machine `m`, has ended. -/
def State.handBack (m : Nat) (s : Suspended) (around : List Suspended) (st : Store) :
    Except Error Value → Progress
  | .ok v =>
    match s.resumption with
    | .value k => .running ⟨st, m, .resume k v, s.run, around⟩
    | .host number => .running ⟨st, m, .report number (.ok v), s.run, around⟩
  | .error e =>
    match s.resumption with
    | .value _ => fail s.run around st e
    | .host number => .running ⟨st, m, .report number (.error e), s.run, around⟩

/-- What becomes of a run on machine `m`, in the middle of other runs. -/
def Progress.inside (m : Nat) (s : Suspended) (around : List Suspended) : Progress → Progress
  | .running x => .running (x.inside (s :: around))
  | .finished st result => State.handBack m s around st result

namespace State

variable {m : Nat} {saved : Option Int} {run : Run} {waiting : List Suspended} {st : Store}
  {s : Suspended} {around : List Suspended}

theorem fail_inside (h : run.Anchored m saved waiting) (e : Error) :
    fail run (waiting ++ s :: around) st e = (fail run waiting st e).inside m s around := by
  induction waiting generalizing run st with
  | nil =>
    obtain ⟨rfl, -⟩ := h
    obtain ⟨outer, resumption⟩ := s
    cases resumption <;> rfl
  | cons w waiting ih =>
    obtain ⟨outer, resumption⟩ := w
    cases resumption with
    | value k => exact ih h
    | host number => rfl

theorem succeed_inside (h : run.Anchored m saved waiting) (v : Value) :
    succeed run (waiting ++ s :: around) st v = (succeed run waiting st v).inside m s around := by
  cases waiting with
  | nil =>
    obtain ⟨rfl, -⟩ := h
    obtain ⟨outer, resumption⟩ := s
    cases resumption <;> rfl
  | cons w waiting =>
    obtain ⟨outer, resumption⟩ := w
    cases resumption <;> rfl

theorem conclude_inside (h : run.Anchored m saved waiting) :
    conclude run (waiting ++ s :: around) st = (conclude run waiting st).inside m s around := by
  unfold conclude
  split
  · exact succeed_inside h _
  · exact fail_inside h _

variable {x : State}

/-- The runs around a run have to do with it only in that it may give them results. -/
theorem execute_inside (h : x.run.Anchored m saved x.waiting) :
    ∃ s' around', (s' :: around').map Suspended.forget = (s :: around).map Suspended.forget ∧
      (x.inside (s :: around)).execute = x.execute.inside m s' around' := by
  obtain ⟨st, machine, control, run, waiting⟩ := x
  simp only [inside, execute]
  cases control.execute st machine with
  | advance st' machine' control' => exact ⟨s, around, rfl, rfl⟩
  | idle st' => exact ⟨s, around, rfl, conclude_inside h⟩
  | fail st' e => exact ⟨s, around, rfl, fail_inside h e⟩
  | nest st' node scope resumption => exact ⟨s, around, rfl, rfl⟩
  | deliver st' id v =>
    simp only [after, deliver]
    split_ifs
    · exact ⟨s, around, rfl, succeed_inside h v⟩
    · refine ⟨s.keep id v, around.map (·.keep id v), ?_, ?_⟩
      · simp [Suspended.forget_keep]
      · rw [List.map_append]
        exact conclude_inside (h.keep id v)

theorem bounce_inside (h : x.run.Anchored m saved x.waiting) (target : Target) :
    (x.inside (s :: around)).bounce target = (x.bounce target).inside m s around := by
  obtain ⟨st, machine, control, run, waiting⟩ := x
  simp only [inside, bounce]
  split
  · exact fail_inside h _
  · rw [apply_ite (Progress.inside m s around)]
    exact ite_congr rfl (fun _ => fail_inside h _) fun _ => rfl

theorem step_inside (h : x.run.Anchored m saved x.waiting) (s : Suspended)
    (around : List Suspended) :
    ∃ s' around', (s' :: around').map Suspended.forget = (s :: around).map Suspended.forget ∧
      (x.inside (s :: around)).step = x.step.inside m s' around' := by
  have hcharge : (x.inside (s :: around)).charge = x.charge.inside (s :: around) := rfl
  have hspent : (x.charge.inside (s :: around)).isSpent = x.charge.isSpent := rfl
  have hcontrol : (x.inside (s :: around)).control = x.control := rfl
  unfold step
  rw [hcontrol]
  split
  · exact execute_inside h
  · dsimp only
    rw [hcharge, hspent]
    split_ifs
    · exact ⟨s, around, rfl, bounce_inside (x := x.charge) h _⟩
    · exact execute_inside (x := x.charge) h

/-- A run in the middle of other runs takes the steps that it takes alone. When it has ended, the
run around it goes on with what it leaves. -/
theorem iterate_inside {found : Machine} (hx : x.place.Since m found) (s : Suspended)
    (around : List Suspended) {n : Nat} {result : Except Error Value}
    (h : x.runWithin n = some (st, result)) :
    ∃ k s' around', k ≤ n ∧
      (s' :: around').map Suspended.forget = (s :: around).map Suspended.forget ∧
      iterate step k (x.inside (s :: around)) = handBack m s' around' st result := by
  -- The runs around may be given results on the way, so they change from step to step.
  induction n generalizing x s around with
  | zero => cases h
  | succ n ih =>
    obtain ⟨s₁, around₁, hkept, hstep⟩ := step_inside hx.anchored s around
    have hsince := since_step hx
    simp only [runWithin] at h
    split at h
    · rename_i y hy
      rw [hy] at hstep hsince
      obtain ⟨k, s₂, around₂, hk, hkept', hiterate⟩ := ih hsince s₁ around₁ h
      refine ⟨k + 1, s₂, around₂, Nat.succ_le_succ hk, hkept'.trans hkept, ?_⟩
      rw [iterate_succ_running hstep]
      exact hiterate
    · rename_i st' result' hfinished
      cases h
      rw [hfinished] at hstep
      refine ⟨1, s₁, around₁, Nat.succ_le_succ (Nat.zero_le n), hkept, ?_⟩
      simp only [iterate, hstep, Progress.inside]
      cases handBack m s₁ around₁ st result <;> rfl

end State

/-! ## New machines -/

namespace Store

variable {st st' : Store} {m : Nat}

/-- The store with a new machine in the place of machine `m`, with the same settings. -/
def refresh (st : Store) (m : Nat) : Store :=
  st.modifyMachine m fun machine => { settings := machine.settings }

theorem beginRun_refresh (hdepth : (st.machine m).depth = 0) :
    (st.refresh m).beginRun m = st.beginRun m := by
  have hzero : ∀ x, st.machines[m]? = some x → x.depth = 0 := fun x hx => by
    simpa only [machine, hx, Option.getD_some] using hdepth
  have hnew : ((st.refresh m).machine m).depth = 0 := by
    simp only [refresh, machine, modifyMachine, Array.getElem?_modify, if_true]
    cases st.machines[m]? <;> rfl
  have hmachines : ((st.refresh m).beginRun m).1.machines = (st.beginRun m).1.machines := by
    refine Array.ext_getElem? fun j => ?_
    simp only [beginRun, refresh, modifyMachine, Array.getElem?_modify]
    split_ifs with hj
    · subst hj
      cases hx : st.machines[m]? with
      | none => rfl
      | some x => simp [hzero x hx]
    · rfl
  have hrun : ((st.refresh m).beginRun m).2 = (st.beginRun m).2 := by
    simp only [beginRun, hnew, hdepth]
    rfl
  exact Prod.ext (congrArg (Store.mk st.world · st.buffers (st.runs + 1)) hmachines) hrun

/-- A run that is inside no other one starts as it does on a new machine. -/
theorem start_refresh (hdepth : (st.machine m).depth = 0) (node : Node) (scope : ScopeId) :
    (st.refresh m).start m node scope = st.start m node scope := by
  unfold start
  rw [beginRun_refresh hdepth]

theorem refresh_moved (hm : m < st.machines.size) :
    (st.refresh m).moved m st.machines.size
        (st.addMachine (st.machine m).settings).1.machines =
      (st.addMachine (st.machine m).settings).1 := by
  have hnew : (st.refresh m).machine m = { settings := (st.machine m).settings } :=
    machine_modifyMachine hm _
  have hmachines : (st.addMachine (st.machine m).settings).1.machines.modify st.machines.size
      (fun _ => (st.refresh m).machine m) = (st.addMachine (st.machine m).settings).1.machines := by
    refine Array.ext_getElem? fun j => ?_
    rw [Array.getElem?_modify, hnew]
    split_ifs with hj
    · subst hj
      simp [addMachine]
    · rfl
  exact congrArg (Store.mk st.world · st.buffers st.runs) hmachines

/-- What can be seen of a run on machine `m` when it has ended. -/
def seen (m : Nat) (x : Store × Except Error Value) : Except Error Value × World × Machine :=
  (x.2, x.1.world, x.1.machine m)

/-- A machine that is added runs a program like machine `m`, if that one has its settings and no run
under way. -/
theorem runWithin_addMachine (hm : m < st.machines.size) (hdepth : (st.machine m).depth = 0)
    (honly : st.Only Action.Unaware) (n : Nat) (node : Node) (scope : ScopeId) :
    ((st.addMachine (st.machine m).settings).1.runWithin n st.machines.size node scope).map
        (seen st.machines.size) =
      (st.runWithin n m node scope).map (seen m) := by
  have hsize : st.machines.size < (st.addMachine (st.machine m).settings).1.machines.size := by
    simp [addMachine]
  have hfresh : m < (st.refresh m).machines.size := (st.size_modifyMachine m _).symm ▸ hm
  have hbegin := moved_beginRun hfresh hsize
  rw [refresh_moved hm, beginRun_refresh hdepth] at hbegin
  have hstart : (st.addMachine (st.machine m).settings).1.start st.machines.size node scope =
      (st.start m node scope).moved m st.machines.size
        (st.addMachine (st.machine m).settings).1.machines := by
    simp only [start, ← hbegin]
    rfl
  have hall : (st.start m node scope).place.All m :=
    ⟨(st.size_modifyMachine m _).symm ▸ hm, rfl, rfl, fun w hw => absurd hw List.not_mem_nil⟩
  unfold runWithin
  rw [hstart, State.runWithin_moved hsize hall (only_start honly m node scope), Option.map_map]
  refine congrArg (Option.map · _) (funext fun x => ?_)
  exact congrArg (fun machine => (x.2, x.1.world, machine)) (machine_moved hsize)

/-! ## The history of a machine -/

/-- What becomes of a store by runs on machine `m`, one after the other, and by whatever else the
host does that leaves machine `m` alone. -/
inductive Used (m : Nat) (st : Store) : Store → Prop
  | new : Used m st st
  | run {st₁ st₂ : Store} {n : Nat} {node : Node} {scope : ScopeId} {result : Except Error Value}
      (h : Used m st st₁) (hrun : st₁.runWithin n m node scope = some (st₂, result)) :
      Used m st st₂
  | host {st₁ st₂ : Store} (h : Used m st st₁) (hm : st₂.machines[m]? = st₁.machines[m]?) :
      Used m st st₂

theorem machine_congr (h : st'.machines[m]? = st.machines[m]?) : st'.machine m = st.machine m := by
  rw [machine, machine, h]

theorem Used.idle (hm : m < st.machines.size) (hdepth : (st.machine m).depth = 0)
    (h : st.Used m st') : m < st'.machines.size ∧ (st'.machine m).depth = 0 ∧
      (st'.machine m).settings = (st.machine m).settings := by
  induction h with
  | new => exact ⟨hm, hdepth, rfl⟩
  | run h hrun ih =>
    obtain ⟨hm₁, hdepth₁, hsettings₁⟩ := ih
    obtain ⟨hm₂, hrestored⟩ := runWithin_restored hm₁ hrun
    exact ⟨hm₂, hrestored.depth.trans hdepth₁, hrestored.settings.trans hsettings₁⟩
  | host h hm ih =>
    obtain ⟨hm₁, hdepth₁, hsettings₁⟩ := ih
    rw [machine_congr hm]
    have hfound := hm.trans (Array.getElem?_eq_getElem hm₁)
    exact ⟨(Array.getElem?_eq_some_iff.1 hfound).1, hdepth₁, hsettings₁⟩

/-- In the middle of any other run, a run on machine `m` comes to the given end within `n` steps.
The other one goes on with that, in the middle of the runs around it; but for results that they may
have been given, all of them are as they were. -/
def EndsInside (st : Store) (n m : Nat) (node : Node) (scope : ScopeId) (st' : Store)
    (result : Except Error Value) : Prop :=
  ∀ run waiting resumption, ∃ s, State.nest run m waiting st node scope resumption = .running s ∧
    ∃ k outer around, k ≤ n ∧
      (outer :: around).map Suspended.forget =
        (⟨run, resumption⟩ :: waiting).map Suspended.forget ∧
      State.iterate State.step k s = State.handBack m outer around st' result

/-- A run in the middle of another one comes to the end that it comes to alone. -/
theorem endsInside_of_runWithin (hm : m < st.machines.size) {n : Nat} {node : Node}
    {scope : ScopeId} {result : Except Error Value}
    (h : st.runWithin n m node scope = some (st', result)) :
    st.EndsInside n m node scope st' result := fun run waiting resumption =>
  ⟨(st.start m node scope).inside (⟨run, resumption⟩ :: waiting), rfl,
    State.iterate_inside (since_start hm node scope) _ _ h⟩

/-- Runs leave no trace on a machine. However a run ends, and whichever runs it is inside of, it
leaves the machine as deep in runs as before, and a run around it with its budget, its number and
counters that have only grown; that run goes on with the result that the other one has alone. A run
inside no other one is, whatever became of the machine since it was new, the run of a new machine in
its place; and, if no builtin tells machines apart, that of a machine that is added for it. -/
theorem runs_leave_no_trace :
    (∀ (st st' : Store) (m n : Nat) (node : Node) (scope : ScopeId) (result : Except Error Value),
      m < st.machines.size → st.runWithin n m node scope = some (st', result) →
      (st.machine m).Restored (st'.machine m) ∧ st.EndsInside n m node scope st' result) ∧
    ∀ (first st : Store) (settings : Settings) (m : Nat), m = (first.addMachine settings).2 →
      (first.addMachine settings).1.Used m st →
      (st.machine m).depth = 0 ∧ (st.machine m).settings = settings ∧
      ∀ n node scope, st.runWithin n m node scope = (st.refresh m).runWithin n m node scope ∧
        (st.Only Action.Unaware → ∀ added m', st.addMachine settings = (added, m') →
          (added.runWithin n m' node scope).map (seen m') =
            (st.runWithin n m node scope).map (seen m)) := by
  refine ⟨fun st st' m n node scope result hm h => ?_, fun first st settings m hnew hused => ?_⟩
  · exact ⟨(runWithin_restored hm h).2, endsInside_of_runWithin hm h⟩
  · have hbound : m < (first.addMachine settings).1.machines.size := by
      simp [hnew, addMachine]
    have hmachine : (first.addMachine settings).1.machine m = { settings } := by
      simp [hnew, addMachine, machine]
    obtain ⟨hm, hdepth, hsettings⟩ := hused.idle hbound (by rw [hmachine])
    replace hsettings : (st.machine m).settings = settings := by rw [hsettings, hmachine]
    refine ⟨hdepth, hsettings, fun n node scope => ⟨?_, fun honly added m' hadded => ?_⟩⟩
    · unfold runWithin
      rw [start_refresh hdepth]
    · have hrun := runWithin_addMachine hm hdepth honly n node scope
      rw [hsettings, hadded] at hrun
      obtain rfl : st.machines.size = m' := congrArg Prod.snd hadded
      exact hrun

/-- A machine with a budget of two steps more. -/
def nestingPair : Store := (nestingStore.addMachine { stackBudget := 2 }).1

/-- Runs a program inside the current run that fails, as no variable has the name. -/
def runMissing : Node :=
  .call Pos.none (.identifier Pos.none (bytes "inner")) [.string Pos.none (bytes "missing")]

/-- A run after one that failed inside another, and a run in the middle of another. -/
theorem runTrue_leaves_no_trace :
    (∃ st st' e result, nestingPair.runWithin 60 1 runMissing 0 = some (st, .error e) ∧
      st.runWithin 60 1 runTrue 0 = some (st', result) ∧
      (st.machine 1).bounces = 4 ∧ (st'.machine 1).bounces = 5 ∧
      ((st.addMachine { stackBudget := 2 }).1.runWithin 60 2 runTrue 0).map (seen 2) =
        some (seen 1 (st', result))) ∧
    ∃ st' result, (nestingPair.start 1 runTrue 0).store.runWithin 60 1 runTrue 0 =
        some (st', result) ∧
      (st'.machine 1).bounces = 5 ∧ (st'.machine 1).depth = 1 ∧ (st'.machine 1).budget = 2 := by
  obtain ⟨hany, hnew⟩ := runs_leave_no_trace
  constructor
  · have hend : (nestingPair.runWithin 60 1 runMissing 0).any (fun x => x.2.isOk == false &&
        (x.1.machine 1).bounces == 4 && x.1.machines.size == 2 &&
        (x.1.runWithin 60 1 runTrue 0).any fun y => (y.1.machine 1).bounces == 5) = true := by
      decide +kernel
    obtain ⟨⟨st, result⟩, h, hx⟩ := Option.any_eq_true _ _ |>.1 hend
    simp only [Bool.and_eq_true, beq_iff_eq] at hx
    obtain ⟨⟨⟨hfailed, hbounces⟩, hsize⟩, hagain⟩ := hx
    obtain ⟨⟨st', result'⟩, h', hbounces'⟩ := Option.any_eq_true _ _ |>.1 hagain
    have honly : nestingStore.Only Action.Unaware :=
      ofBuiltins_only ⟨trivial, trivial⟩ (by simp [Action.Only, Action.Unaware]) fun _ hn => hn.elim
    have hused : nestingPair.Used 1 st := .run .new h
    have hunaware : st.Only Action.Unaware :=
      Ends.only ⟨60, h⟩ Action.unaware_provides ⟨honly.world, honly.buffers⟩
    have hadded := ((hnew nestingStore st { stackBudget := 2 } 1 rfl hused).2.2 60 runTrue 0).2
      hunaware _ 2 (Prod.ext rfl hsize)
    cases result with
    | ok v => cases hfailed
    | error e =>
      refine ⟨st, st', e, result', h, h', hbounces, beq_iff_eq.1 hbounces', ?_⟩
      rwa [h'] at hadded
  · have hend : ((nestingPair.start 1 runTrue 0).store.runWithin 60 1 runTrue 0).any
        (fun x => (x.1.machine 1).bounces == 5) = true := by
      decide +kernel
    obtain ⟨⟨st', result⟩, h, hx⟩ := Option.any_eq_true _ _ |>.1 hend
    have hrestored := (hany _ st' 1 60 runTrue 0 result (by decide) h).1
    exact ⟨st', result, h, beq_iff_eq.1 hx, hrestored.depth, hrestored.budget (by decide)⟩

end Store

end Mycel
