import Mycel.Proofs.Machine.Budget

/-!
# Runs that end

What holds at the start of a run and is kept by every step holds of what the run leaves
(`State.runWithin_keeps`). So a run leaves every machine with the settings that it had, and only
builtins that were within reach before.
-/

namespace Mycel

namespace State

/-- What every step keeps holds at the end of a run. -/
theorem runWithin_keeps {P : Progress → Prop} (hstep : ∀ s, P (.running s) → P s.step) {s : State}
    (hs : P (.running s)) {n : Nat} {st : Store} {result : Except Error Value}
    (h : s.runWithin n = some (st, result)) : P (.finished st result) := by
  induction n generalizing s with
  | zero => cases h
  | succ n ih =>
    have hnext := hstep s hs
    simp only [runWithin] at h
    split at h
    · rename_i s' hs'
      rw [hs'] at hnext
      exact ih hnext h
    · rename_i st' result' hfinished
      cases h
      rwa [hfinished] at hnext

end State

/-! ## Machines without a bounce limit -/

/-- The store has a machine `m` with a budget, and that may bounce as often as it likes. -/
def Store.Ready (st : Store) (m : Nat) : Prop :=
  ∃ machine, st.machines[m]? = some machine ∧ machine.settings.maxBounces = 0 ∧
    1 ≤ machine.settings.stackBudget

namespace Store.Ready

variable {st : Store} {m : Nat}

theorem bound (h : st.Ready m) : m < st.machines.size := by
  obtain ⟨machine, hmachine, -⟩ := h
  exact (Array.getElem?_eq_some_iff.1 hmachine).1

theorem settings (h : st.Ready m) :
    (st.machine m).settings.maxBounces = 0 ∧ 1 ≤ (st.machine m).settings.stackBudget := by
  obtain ⟨machine, hmachine, hsettings⟩ := h
  rw [Store.machine, hmachine]
  exact hsettings

theorem modifyMachine (h : st.Ready m) (i : Nat) {f : Machine → Machine}
    (hf : ∀ x, (f x).settings = x.settings) : (st.modifyMachine i f).Ready m := by
  obtain ⟨machine, hmachine, hsettings⟩ := h
  by_cases hi : i = m
  · refine ⟨f machine, ?_, ?_⟩
    · simp [Store.modifyMachine, Array.getElem?_modify, hi, hmachine]
    · rwa [hf]
  · refine ⟨machine, ?_, hsettings⟩
    simp [Store.modifyMachine, Array.getElem?_modify, hi, hmachine]

theorem endRun (h : st.Ready m) (run : Run) (failure : Option Error) :
    (st.endRun run failure).Ready m := by
  unfold Store.endRun
  refine modifyMachine ?_ run.machine fun _ => rfl
  split_ifs <;> exact h

end Store.Ready

/-- Machine `m` is ready in the store of a run that goes on or has ended. -/
def Progress.Ready (m : Nat) : Progress → Prop
  | .running s => s.store.Ready m
  | .finished st _ => st.Ready m

namespace Place

variable {m : Nat} {x y : Place}

theorem Unwinds.ready (h : x.Unwinds y) (hx : x.store.Ready m) : y.store.Ready m := by
  induction h with
  | refl => exact hx
  | keep id v _ ih => exact ih hx
  | pop failure _ ih => exact ih (hx.endRun _ failure)

theorem Reaches.ready {q : Progress} (h : x.Reaches q) (hx : x.store.Ready m) : q.Ready m := by
  cases q with
  | running s => exact Unwinds.ready h hx
  | finished st result =>
    obtain ⟨y, failure, hy, -, rfl⟩ := h
    exact (hy.ready hx).endRun _ failure

end Place

namespace State

variable {m : Nat} {s : State}

theorem ready_execute (hs : s.store.Ready m) : s.execute.Ready m := by
  rcases s.execute_cases with ⟨st, node, scope, resumption, hst, -, -, he⟩ | hr
  · rw [he]
    have hready : st.Ready m := by rwa [Store.Ready, hst]
    exact hready.modifyMachine s.machine fun _ => rfl
  · refine hr.ready ?_
    rwa [Store.Ready, Control.execute_machines]

theorem ready_bounce (hs : s.store.Ready m) (target : Target) : (s.bounce target).Ready m := by
  obtain ⟨st, machine, control, run, waiting⟩ := s
  have hcounted := Store.Ready.modifyMachine hs run.machine
    (f := fun m => { m with bounces := m.bounces + 1 }) fun _ => rfl
  have hfail : ∀ e, (fail run waiting _ e).Ready m := fun e =>
    Place.Reaches.ready (x := ⟨_, machine, run, waiting⟩) (Place.reaches_fail e) hcounted
  simp only [bounce]
  split
  · exact hfail _
  · split_ifs
    · exact hfail _
    · exact hcounted.modifyMachine run.machine fun _ => rfl

/-- A step leaves the settings of the machines as they are. -/
theorem ready_step (hs : s.store.Ready m) : s.step.Ready m := by
  have hcharge : s.charge.store.Ready m := hs.modifyMachine s.machine fun _ => rfl
  unfold step
  split
  · exact ready_execute hs
  · dsimp only
    split_ifs
    · exact ready_bounce hcharge _
    · exact ready_execute hcharge

end State

/-! ## What a run leaves -/

namespace Store

/-- Running a node on machine `m` comes to an end. -/
def Ends (st : Store) (m : Nat) (node : Node) (scope : ScopeId) (st' : Store)
    (result : Except Error Value) : Prop :=
  ∃ n, st.runWithin n m node scope = some (st', result)

variable {st st' : Store} {m : Nat} {node : Node} {scope : ScopeId} {result : Except Error Value}

theorem Ends.ready (h : st.Ends m node scope st' result) {i : Nat} (hi : st.Ready i) :
    st'.Ready i := by
  obtain ⟨n, hn⟩ := h
  have hstart : (st.start m node scope).store.Ready i := hi.modifyMachine m fun _ => rfl
  exact State.runWithin_keeps (P := Progress.Ready i) (fun _ => State.ready_step) hstart hn

theorem Ends.only {p : Action → Prop} (h : st.Ends m node scope st' result)
    (hp : ∀ m, Provides p m) (hs : st.Only p) : st'.Only p := by
  obtain ⟨n, hn⟩ := h
  have hend := State.runWithin_keeps (P := Progress.Only p)
    (fun s hs => State.only_step (hp s.machine) hs) (only_start hs m node scope) hn
  exact hend.1

theorem unlimited_of_ready {p : Action → Prop} (hs : st.Only p) (hm : st.Ready m)
    (hcanceled : st.world.canceled = none) (node : Node) (scope : ScopeId) :
    (st.start m node scope).Unlimited p m := by
  refine ⟨calm_start hs hm.bound hcanceled node scope, ?_, ?_⟩
  · rw [settings_start]
    exact hm.settings.1
  · rw [settings_start]
    exact hm.settings.2

end Store

end Mycel
