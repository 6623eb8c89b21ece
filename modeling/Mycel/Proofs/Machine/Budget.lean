import Mycel.Proofs.Machine.Confinement
import Mycel.Proofs.Machine.Execution

/-!
# Budgets

A machine with a budget bounces now and then, and apart from that it does what a machine without
guards does. `State.step` is compared with `State.execute` on erased states: a step that bounces
leaves the erased state as it is, and any other step does to it what `execute` does. Without a
bounce limit the two therefore go through the same states (`iterate_step_simulated`,
`iterate_execute_simulated`), and so do any two machines that differ in their budgets.
-/

namespace Mycel

variable {p : Action → Prop} {m : Nat}

namespace State

/-! ## A step with a guard -/

/-- The state when the guard of its step, if there is one, has been charged. -/
def pay (s : State) : State := if s.isGuarded then s.charge else s

/-- The store when a bounce has been counted. -/
def counted (s : State) : Store :=
  s.charge.store.modifyMachine s.run.machine fun m => { m with bounces := m.bounces + 1 }

/-- The state after a bounce, with a new budget. -/
def renew (s : State) : State :=
  { s.charge with
    store := s.counted.modifyMachine s.run.machine fun m =>
      { m with budget := m.settings.stackBudget } }

/-- A charge changes nothing but the machine. -/
theorem pay_eq (s : State) :
    s.pay.control = s.control ∧ s.pay.waiting = s.waiting ∧ s.pay.store.runs = s.store.runs := by
  unfold pay
  split_ifs <;> exact ⟨rfl, rfl, rfl⟩

theorem pay_erase (s : State) : s.pay.erase = s.erase := by
  unfold pay
  split_ifs <;> rfl

variable {s s' : State}

/-- A step that does not bounce does what it says. -/
theorem step_eq_execute (h : s.mustBounce = false) : s.step = s.pay.execute := by
  unfold step pay
  cases ht : s.control.target? with
  | none => simp [isGuarded, ht]
  | some target =>
    have hg : s.isGuarded = true := by simp [isGuarded, ht]
    have hspent : s.charge.isSpent = false := by simpa [mustBounce, hg] using h
    simp [hg, hspent]

theorem step_erase (h : s.mustBounce = false) : s.step.erase = s.erase.execute := by
  rw [step_eq_execute h, ← execute_erase, pay_erase]

/-! ## Calm states -/

theorem calm_charge (hs : s.Calm p m) : s.charge.Calm p m :=
  ⟨only_charge hs.only, hs.place.machine, hs.place.run, hs.place.waiting,
    (Store.size_modifyMachine ..).symm ▸ hs.place.bound, hs.place.canceled⟩

theorem calm_pay (hs : s.Calm p m) : s.pay.Calm p m := by
  unfold pay
  split_ifs
  · exact calm_charge hs
  · exact hs

theorem size_counted (s : State) : s.counted.machines.size = s.store.machines.size := by
  rw [counted, Store.size_modifyMachine]
  exact Store.size_modifyMachine ..

theorem calm_renew (hs : s.Calm p m) : s.renew.Calm p m := by
  refine ⟨⟨⟨hs.only.store.world, hs.only.store.buffers⟩, hs.only.control, hs.only.run,
    hs.only.waiting⟩, hs.place.machine, hs.place.run, hs.place.waiting, ?_, hs.place.canceled⟩
  show m < (Store.modifyMachine _ _ _).machines.size
  rw [Store.size_modifyMachine, size_counted]
  exact hs.place.bound

/-- What a charge does to the machine. -/
theorem machine_charge (hs : s.place.On m) :
    s.charge.store.machine m =
      { s.store.machine m with
        steps := (s.store.machine m).steps + 1, budget := (s.store.machine m).budget - 1 } := by
  have hmach : s.machine = m := hs.machine
  simp only [charge, hmach]
  exact Store.machine_modifyMachine hs.bound _

theorem machine_counted (hs : s.place.On m) :
    s.counted.machine m =
      { s.store.machine m with
        steps := (s.store.machine m).steps + 1, bounces := (s.store.machine m).bounces + 1
        budget := (s.store.machine m).budget - 1 } := by
  have hrun : s.run.machine = m := hs.run
  have hb : m < s.charge.store.machines.size := (Store.size_modifyMachine ..).symm ▸ hs.bound
  rw [counted, hrun, Store.machine_modifyMachine hb, machine_charge hs]

/-- What a bounce does to the machine. -/
theorem machine_renew (hs : s.place.On m) :
    s.renew.store.machine m =
      { s.store.machine m with
        steps := (s.store.machine m).steps + 1, bounces := (s.store.machine m).bounces + 1
        budget := (s.store.machine m).settings.stackBudget } := by
  have hrun : s.run.machine = m := hs.run
  have hb : m < s.counted.machines.size := s.size_counted.symm ▸ hs.bound
  simp only [renew, hrun]
  rw [Store.machine_modifyMachine hb, machine_counted hs]

theorem settings_pay (hs : s.place.On m) : s.pay.settings m = s.settings m := by
  unfold pay settings
  split_ifs
  · rw [machine_charge hs]
  · rfl

theorem settings_renew (hs : s.place.On m) : s.renew.settings m = s.settings m := by
  unfold settings
  rw [machine_renew hs]

/-- The machine bounces if it has no budget left. -/
theorem mustBounce_iff (hs : s.place.On m) :
    s.mustBounce = true ↔ s.isGuarded = true ∧ (s.store.machine m).budget ≤ 0 := by
  have hmach : s.charge.machine = m := hs.machine
  simp only [mustBounce, isSpent, hmach, machine_charge hs, Bool.and_eq_true, decide_eq_true_eq]
  exact and_congr_right fun _ => ⟨fun h => by omega, fun h => by omega⟩

theorem step_eq_bounce (h : s.mustBounce = true) :
    ∃ target, s.control.target? = some target ∧ s.step = s.charge.bounce target := by
  have hg : s.isGuarded = true ∧ s.charge.isSpent = true := by simpa [mustBounce] using h
  obtain ⟨target, ht⟩ := Option.isSome_iff_exists.1 hg.1
  refine ⟨target, ht, ?_⟩
  unfold step
  rw [ht]
  exact if_pos hg.2

/-- A bounce ends the run if it was one too many. -/
theorem step_eq_renew (hs : s.Calm p m) (h : s.mustBounce = true) :
    s.step =
      if (s.settings m).maxBounces > 0 ∧
          (((s.store.machine m).bounces + 1 : Nat) : Int) > (s.settings m).maxBounces then
        fail s.run s.waiting s.counted
          ((Fault.bounceLimit (s.settings m).maxBounces).error Pos.none)
      else .running s.renew := by
  obtain ⟨target, -, hstep⟩ := step_eq_bounce h
  have hrun : s.run.machine = m := hs.place.run
  have hcanceled : s.charge.store.world.canceled = none := hs.place.canceled
  have hmachine := machine_counted hs.place
  rw [hstep]
  unfold renew
  unfold counted at hmachine ⊢
  obtain ⟨st, machine, control, run, waiting⟩ := s
  subst hrun
  simp only [charge, bounce, Store.modifyMachine] at hmachine hcanceled ⊢
  simp only [hcanceled, hmachine]
  rfl

/-! ## Runs without a limit -/

/-- A calm state of a machine that may bounce as often as it likes. -/
structure Unlimited (p : Action → Prop) (m : Nat) (s : State) : Prop extends s.Calm p m where
  limit : (s.settings m).maxBounces = 0
  budget : 1 ≤ (s.settings m).stackBudget

theorem Unlimited.of_settings (hs : s.Unlimited p m) (h : s'.Calm p m)
    (hset : s'.settings m = s.settings m) : s'.Unlimited p m :=
  ⟨h, hset ▸ hs.limit, hset ▸ hs.budget⟩

/-- A bounce lets the step through the next time. -/
theorem unlimited_bounce (hs : s.Unlimited p m) (h : s.mustBounce = true) :
    s.step = .running s.renew ∧ s.renew.Unlimited p m ∧ s.renew.mustBounce = false := by
  have hplace := hs.place
  refine ⟨?_, hs.of_settings (calm_renew hs.toCalm) (settings_renew hplace), ?_⟩
  · rw [step_eq_renew hs.toCalm h, if_neg]
    have hl := hs.limit
    omega
  · rw [← Bool.not_eq_true, mustBounce_iff (calm_renew hs.toCalm).place, machine_renew hplace]
    rintro ⟨-, hle⟩
    exact absurd (Int.le_trans hs.budget hle) (by decide)

theorem unlimited_step (hc : Confined p m) (hs : s.Unlimited p m) (h : s.step = .running s') :
    s'.Unlimited p m := by
  by_cases hb : s.mustBounce = true
  · obtain ⟨hstep, hs', -⟩ := unlimited_bounce hs hb
    rw [hstep] at h
    cases h
    exact hs'
  · rw [step_eq_execute (Bool.not_eq_true _ ▸ hb)] at h
    have hpay := calm_pay hs.toCalm
    refine hs.of_settings (calm_execute hc hpay h) ?_
    rw [settings_execute h, settings_pay hs.place]

/-- The steps that are done when `n` steps are taken without guards. -/
def plainTrace (n : Nat) (s : State) : List Label := record execute (fun s => [s.label]) n s

/-- One step, as the plain evaluator sees it. -/
theorem iterate_succ_simulated (hb : s.mustBounce = false) {n j : Nat}
    (h : ∀ s', s.step = .running s' → (iterate step n s').erase = iterate execute j s'.erase ∧
      trace n s' = plainTrace j s'.erase) :
    (iterate step (n + 1) s).erase = iterate execute (j + 1) s.erase ∧
      trace (n + 1) s = plainTrace (j + 1) s.erase := by
  have herase := step_erase hb
  unfold trace plainTrace at h ⊢
  cases hstep : s.step with
  | running s' =>
    rw [hstep] at herase
    rw [iterate_succ_running hstep, record_succ_running hstep, iterate_succ_running herase.symm,
      record_succ_running herase.symm, (h s' hstep).1, (h s' hstep).2, hb]
    exact ⟨rfl, rfl⟩
  | finished st result =>
    rw [hstep] at herase
    rw [iterate_succ_finished hstep, record_succ_finished hstep,
      iterate_succ_finished herase.symm, record_succ_finished herase.symm, hb]
    exact ⟨rfl, rfl⟩

/-- A bounce, as the plain evaluator sees it. -/
theorem iterate_succ_bounce (hs : s.Unlimited p m) (hb : s.mustBounce = true) (n : Nat) :
    iterate step (n + 1) s = iterate step n s.renew ∧ trace (n + 1) s = trace n s.renew := by
  obtain ⟨hstep, -, -⟩ := unlimited_bounce hs hb
  refine ⟨iterate_succ_running hstep n, ?_⟩
  unfold trace
  rw [record_succ_running hstep, if_pos hb, List.nil_append]

/-- What a machine with a budget does in `n` steps, one without guards does too. -/
theorem iterate_step_simulated (hc : Confined p m) (hs : s.Unlimited p m) (n : Nat) :
    ∃ j, (iterate step n s).erase = iterate execute j s.erase ∧
      trace n s = plainTrace j s.erase := by
  induction n generalizing s with
  | zero => exact ⟨0, rfl, rfl⟩
  | succ n ih =>
    by_cases hb : s.mustBounce = true
    · obtain ⟨j, hj⟩ := ih (unlimited_bounce hs hb).2.1
      obtain ⟨hi, ht⟩ := iterate_succ_bounce hs hb n
      rw [hi, ht]
      exact ⟨j, hj⟩
    · rw [Bool.not_eq_true] at hb
      cases hstep : s.step with
      | running s' =>
        obtain ⟨j, hj⟩ := ih (unlimited_step hc hs hstep)
        refine ⟨j + 1, iterate_succ_simulated hb fun t ht => ?_⟩
        rw [hstep] at ht
        cases ht
        exact hj
      | finished st result =>
        refine ⟨0 + 1, iterate_succ_simulated hb fun t ht => ?_⟩
        rw [hstep] at ht
        cases ht

/-- What a machine without guards does in `j` steps, one with a budget does sooner or later. -/
theorem iterate_execute_simulated (hc : Confined p m) (hs : s.Unlimited p m) (j : Nat) :
    ∃ n, (iterate step n s).erase = iterate execute j s.erase ∧
      trace n s = plainTrace j s.erase := by
  induction j generalizing s with
  | zero => exact ⟨0, rfl, rfl⟩
  | succ j ih =>
    have hlet : ∀ {s : State}, s.Unlimited p m → s.mustBounce = false →
        ∃ n, (iterate step n s).erase = iterate execute (j + 1) s.erase ∧
          trace n s = plainTrace (j + 1) s.erase := by
      intro s hs hb
      cases hstep : s.step with
      | running s' =>
        obtain ⟨n, hn⟩ := ih (unlimited_step hc hs hstep)
        refine ⟨n + 1, iterate_succ_simulated hb fun t ht => ?_⟩
        rw [hstep] at ht
        cases ht
        exact hn
      | finished st result =>
        refine ⟨1, iterate_succ_simulated hb fun t ht => ?_⟩
        rw [hstep] at ht
        cases ht
    by_cases hb : s.mustBounce = true
    · obtain ⟨-, hs', hb'⟩ := unlimited_bounce hs hb
      obtain ⟨n, hn⟩ := hlet hs' hb'
      obtain ⟨hi, ht⟩ := iterate_succ_bounce hs hb n
      refine ⟨n + 1, ?_⟩
      rw [hi, ht]
      exact hn
    · exact hlet hs (Bool.not_eq_true _ ▸ hb)

end State

/-! ## What a run shows -/

namespace Store

/-- Sets the budget and the bounce limit of a machine. -/
def configure (st : Store) (m budget limit : Nat) : Store :=
  st.modifyMachine m fun machine =>
    { machine with
      settings := { machine.settings with stackBudget := budget, maxBounces := limit } }

variable {st : Store}

theorem settings_configure (hm : m < st.machines.size) (budget limit : Nat) :
    ((st.configure m budget limit).machine m).settings =
      { (st.machine m).settings with stackBudget := budget, maxBounces := limit } := by
  rw [configure, machine_modifyMachine hm]

/-- The counters apart, a run starts the same way whatever the settings. -/
theorem start_configure_erase (st : Store) (m budget limit : Nat) (node : Node) (scope : ScopeId) :
    ((st.configure m budget limit).start m node scope).erase = (st.start m node scope).erase := rfl

theorem only_start (hs : st.Only p) (m : Nat) (node : Node) (scope : ScopeId) :
    (st.start m node scope).Only p := by
  refine ⟨⟨hs.world, hs.buffers⟩, ?_, ?_, ?_⟩
  · simp [start, Control.Only, Continuation.Only]
  · intro v hv
    cases hv
  · exact List.forall_mem_nil _

theorem calm_start (hs : st.Only p) (hm : m < st.machines.size) (hc : st.world.canceled = none)
    (node : Node) (scope : ScopeId) : (st.start m node scope).Calm p m := by
  refine ⟨only_start hs m node scope, rfl, rfl, List.forall_mem_nil _, ?_, hc⟩
  exact (size_modifyMachine st m _).symm ▸ hm

theorem settings_start (st : Store) (m i : Nat) (node : Node) (scope : ScopeId) :
    (st.start m node scope).settings i = (st.machine i).settings :=
  settings_beginRun st m i

theorem calm_configure_start (hs : st.Only p) (hm : m < st.machines.size)
    (hc : st.world.canceled = none) (budget limit : Nat) (node : Node) (scope : ScopeId) :
    ((st.configure m budget limit).start m node scope).Calm p m := by
  have hs' : (st.configure m budget limit).Only p := ⟨hs.world, hs.buffers⟩
  refine calm_start hs' ?_ hc node scope
  rw [configure, size_modifyMachine]
  exact hm

theorem unlimited_start (hs : st.Only p) (hm : m < st.machines.size)
    (hc : st.world.canceled = none) {budget : Nat} (hb : 1 ≤ budget) (node : Node)
    (scope : ScopeId) : ((st.configure m budget 0).start m node scope).Unlimited p m := by
  refine ⟨calm_configure_start hs hm hc budget 0 node scope, ?_, ?_⟩
  · rw [settings_start, settings_configure hm]
    rfl
  · rw [settings_start, settings_configure hm]
    exact Int.ofNat_le.2 hb

/-- What can be told of a run that has ended. -/
structure Observation where
  result : Except Error Value
  output : Output
  heap : Heap
  /-- The builtins that were called, with their arguments. -/
  calls : List (Action × List Value)
  /-- What the host has been told. -/
  encounters : List Encounter

/-- A run ends, and this is what it shows. -/
def Shows (st : Store) (m : Nat) (node : Node) (scope : ScopeId) (o : Observation) : Prop :=
  ∃ n st', st.runWithin n m node scope = some (st', o.result) ∧
    st'.world.output = o.output ∧ st'.world.heap = o.heap ∧
    ((st.start m node scope).trace n).filterMap (·.call) = o.calls ∧
    st'.world.encounters = o.encounters

end Store

/-- The evaluation without guards ends. -/
def State.EndsPlainly (s : State) (st : Store) (result : Except Error Value)
    (labels : List Label) : Prop :=
  ∃ j, iterate execute j s.erase = .finished st result ∧ plainTrace j s.erase = labels

/-- A machine without a limit comes to the same end as the evaluation without guards, if to any. -/
theorem State.Unlimited.runWithin_iff {s : State} (hc : Confined p m) (hs : s.Unlimited p m)
    {st : Store} {result : Except Error Value} {labels : List Label} :
    (∃ n st', s.runWithin n = some (st', result) ∧ st'.erase = st ∧ s.trace n = labels) ↔
      s.EndsPlainly st result labels := by
  constructor
  · rintro ⟨n, st', hn, rfl, rfl⟩
    rw [runWithin_eq_some_iff] at hn
    obtain ⟨j, hj, ht⟩ := iterate_step_simulated hc hs n
    rw [hn] at hj
    exact ⟨j, hj.symm, ht.symm⟩
  · rintro ⟨j, hj, rfl⟩
    obtain ⟨n, hn, ht⟩ := iterate_execute_simulated hc hs j
    rw [hj] at hn
    cases hi : iterate step n s with
    | running s' =>
      rw [hi] at hn
      cases hn
    | finished st' result' =>
      rw [hi] at hn
      cases hn
      exact ⟨n, st', runWithin_eq_some_iff.2 hi, rfl, ht⟩

namespace Store

variable {st : Store}

/-- Whatever the budget, a run shows what the evaluation without guards shows. -/
theorem shows_iff_plain (hc : Confined p m) (hs : st.Only p) (hm : m < st.machines.size)
    (hcanceled : st.world.canceled = none) {budget : Nat} (hb : 1 ≤ budget) (node : Node)
    (scope : ScopeId) (o : Observation) :
    (st.configure m budget 0).Shows m node scope o ↔
      ∃ st' labels, (st.start m node scope).EndsPlainly st' o.result labels ∧
        st'.world.output = o.output ∧ st'.world.heap = o.heap ∧
        labels.filterMap (·.call) = o.calls ∧ st'.world.encounters = o.encounters := by
  have hiff : ∀ st' labels, _ ↔ (st.start m node scope).EndsPlainly st' o.result labels :=
    fun _ _ => (unlimited_start hs hm hcanceled hb node scope).runWithin_iff hc
  constructor
  · rintro ⟨n, st', hn, ho⟩
    exact ⟨st'.erase, _, (hiff _ _).1 ⟨n, st', hn, rfl, rfl⟩, ho⟩
  · rintro ⟨st', labels, hst, ho⟩
    obtain ⟨n, st'', hn, rfl, rfl⟩ := (hiff _ _).2 hst
    exact ⟨n, st'', hn, ho⟩

/-- One machine, and global scope `0` with some builtins more. -/
def ofBuiltins (host : HostProgram) (bs : List (String × Action)) : Store where
  world := (World.globals { host }).1.addBuiltins 0 bs
  machines := #[{ settings := {} }]

theorem ofBuiltins_only {host : HostProgram} {bs : List (String × Action)}
    (hp : p .print ∧ p .println) (hbs : ∀ b ∈ bs, (b.2).Only p)
    (hhost : ∀ number, p (.host number) → host.Keeps p) : (ofBuiltins host bs).Only p := by
  refine ⟨World.only_addBuiltins 0 hbs (World.only_globals ⟨?_, fun number hn => ?_⟩ hp), ?_⟩
  · simp [Heap.Only, Heap.empty]
  · exact ⟨hhost number hn, by simp⟩
  · simp [ofBuiltins]

/-! ### A host that goes back

Its builtin gives true to the first caller. The second caller is sent back to where the first one
was, which now gets false.
-/

def rewinding : HostProgram where
  react e es :=
    { heap := e.heap
      output := e.output
      fresh := e.fresh
      demand :=
        match e.notice, es with
        | .called _ _ k, [] => .resume k (.bool true)
        | .called _ _ _, [⟨.called _ _ k, _, _, _⟩] => .resume k (.bool false)
        | _, _ => .drop }

theorem rewinding_keeps (p : Action → Prop) : rewinding.Keeps p := by
  rintro ⟨notice, heap, output, fresh⟩ es ⟨hn, hh⟩ hes
  refine ⟨hh, ?_⟩
  simp only [rewinding]
  split
  · exact ⟨hn.2, trivial⟩
  · exact ⟨(hes _ (List.mem_singleton.2 rfl)).1.2, trivial⟩
  · trivial

/-- Writes what the host says, and asks it once more. -/
def askTwice : Node :=
  .program Pos.none
    [.call Pos.none (.identifier Pos.none (bytes "print"))
      [.call Pos.none (.identifier Pos.none (bytes "ask")) []],
    .call Pos.none (.identifier Pos.none (bytes "ask")) []]

/-- A global scope with the builtin of that host. -/
def rewindingStore : Store := ofBuiltins rewinding [("ask", .host 0)]

theorem rewindingStore_only : rewindingStore.Only (Action.Tame 0) :=
  ofBuiltins_only ⟨trivial, trivial⟩ (by simp [Action.Only, Action.Tame]) fun _ _ =>
    rewinding_keeps _

/-- The budget cannot be observed: with any two budgets, a run ends with the same result, output
and scopes, and after the same calls of builtins, or it does not end with either. -/
theorem shows_configure_iff (hs : st.Only (Action.Tame m)) (hm : m < st.machines.size)
    (hcanceled : st.world.canceled = none) {b₁ b₂ : Nat} (h₁ : 1 ≤ b₁) (h₂ : 1 ≤ b₂) (node : Node)
    (scope : ScopeId) (o : Observation) :
    (st.configure m b₁ 0).Shows m node scope o ↔ (st.configure m b₂ 0).Shows m node scope o := by
  have hc := Action.tame_confined m
  rw [shows_iff_plain hc hs hm hcanceled h₁, shows_iff_plain hc hs hm hcanceled h₂]

/-- The host that goes back is shown the same calls with a budget of one step and of two hundred.
-/
theorem shows_askTwice :
    ∃ o, (rewindingStore.configure 0 1 0).Shows 0 askTwice 0 o ∧
      (rewindingStore.configure 0 200 0).Shows 0 askTwice 0 o ∧ o.calls.length = 5 := by
  have hsome : ((rewindingStore.configure 0 1 0).runWithin 200 0 askTwice 0).isSome = true := by
    decide +kernel
  have hcalls : ((((rewindingStore.configure 0 1 0).start 0 askTwice 0).trace 200).filterMap
      (·.call)).length = 5 := by
    decide +kernel
  obtain ⟨⟨st, result⟩, h⟩ := Option.isSome_iff_exists.1 hsome
  have hshows : (rewindingStore.configure 0 1 0).Shows 0 askTwice 0
      ⟨result, st.world.output, st.world.heap, _, st.world.encounters⟩ :=
    ⟨200, st, h, rfl, rfl, rfl, rfl⟩
  refine ⟨_, hshows, ?_, hcalls⟩
  exact (shows_configure_iff rewindingStore_only (by decide) rfl (by decide) (by decide) _ _ _).1
    hshows

end Store

end Mycel
