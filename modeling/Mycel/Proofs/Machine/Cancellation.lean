import Mycel.Proofs.Machine.BounceLimit

/-!
# Cancellation

An evaluation that is told to stop goes on up to its next bounce and fails there, if it has not
ended by then. It is compared with the same evaluation on a machine that is never told to stop and
has no bounce limit (`State.stepFreely`). As long as both go on they take the same steps, and bounce
together (`State.Paired`); `Store.runWithin_canceled` says where the first of them is cut short.
-/

namespace Mycel

variable {m budget first : Nat} {l : Ledger}

/-! ## Machines that are never told to stop -/

/-- The store of an evaluation that nobody has told to stop. -/
def Store.pardon (st : Store) : Store := { st with world := { st.world with canceled := none } }

def State.pardon (s : State) : State := { s with store := s.store.pardon }

def Progress.pardon : Progress → Progress
  | .running s => .running s.pardon
  | .finished st result => .finished st.pardon result

namespace State

/-- A step of a machine that is never told to stop. -/
def stepFreely (s : State) : Progress := s.pardon.step

/-- What is noted of a step: nothing if it bounces. -/
def note (s : State) : List Label := if s.mustBounce then [] else [s.label]

/-- The steps that are done when such a machine takes `n` steps. -/
def traceFreely (n : Nat) (s : State) : List Label := record stepFreely note n s

end State

theorem World.bindParams_canceled (w : World) (canceled : Option Text) (s : ScopeId)
    (params : List Text) (args : List Value) :
    bindParams s { w with canceled } params args =
      { bindParams s w params args with canceled } := by
  induction params generalizing w args with
  | nil => rfl
  | cons p ps ih =>
    cases args with
    | nil => exact ih (w.define s p (.bool false)) []
    | cons v vs => exact ih (w.define s p v) vs

theorem World.enter_canceled (w : World) (canceled : Option Text) (c : Closure)
    (args : List Value) :
    enter { w with canceled } c args =
      ({ (w.enter c args).1 with canceled }, (w.enter c args).2) :=
  Prod.ext (bindParams_canceled { w with heap := w.heap.extend c.scope } canceled w.heap.next
    c.params args) rfl

namespace Store

variable (st : Store)

theorem buffered_pardon (buffer filled : Nat) :
    st.pardon.buffered buffer filled = st.buffered buffer filled := rfl

theorem machine_pardon (m : Nat) : st.pardon.machine m = st.machine m := rfl

theorem endRun_pardon (run : Run) (failure : Option Error) :
    (st.pardon.endRun run failure).pardon = (st.endRun run failure).pardon := by
  have hm := st.machine_pardon run.machine
  simp only [endRun, hm]
  split_ifs <;> rfl

theorem evaluate_pardon (scope : ScopeId) (k : Continuation) (node : Node) :
    (st.pardon.evaluate m scope k node).mapStore pardon =
      (st.evaluate m scope k node).mapStore pardon := by
  cases node with
  | identifier pos name =>
    simp only [evaluate, pardon]
    cases st.world.heap.get? scope name <;> rfl
  | assign pos target value => cases target <;> rfl
  | lambda pos name params body => cases name <;> rfl
  | _ => rfl

theorem resume_pardon (v : Value) {k : Continuation} (hk : k.Only Action.Stoppable) :
    (st.pardon.resume m v k).mapStore pardon = (st.resume m v k).mapStore pardon := by
  cases k with
  | assign pos name scope k =>
    simp only [resume, pardon]
    cases st.world.heap.target? scope name <;> rfl
  | right pos o left k =>
    simp only [resume]
    cases o.apply left v <;> rfl
  | branch whenTrue whenFalse scope k =>
    simp only [resume]
    split_ifs <;> rfl
  | again f k =>
    simp only [resume, apply]
    cases f.call? [v] (.applied k) <;> rfl
  | hosted number => exact hk.elim
  | _ => rfl

theorem perform_pardon (args : List Value) (k : Continuation) {action : Action}
    (h : action.Only Action.Stoppable) :
    (st.pardon.perform m args k action).mapStore pardon =
      (st.perform m args k action).mapStore pardon := by
  have hwrite : ∀ primitive t, (st.pardon.writeFor m primitive t k).mapStore pardon =
      (st.writeFor m primitive t k).mapStore pardon := by
    intro primitive t
    simp only [writeFor, pardon]
    cases st.world.output.write? t <;> rfl
  cases action with
  | print | println => exact hwrite _ _
  | stop => rfl
  | escape machine k => exact h.1.elim
  | _ => exact h.elim

end Store

/-- What a step does has nothing to do with whether the evaluation was told to stop. -/
theorem Control.execute_pardon (st : Store) {c : Control} (h : c.Only Action.Stoppable) :
    (c.execute st.pardon m).mapStore Store.pardon = (c.execute st m).mapStore Store.pardon := by
  cases c with
  | evaluate node scope k => exact st.evaluate_pardon scope k node
  | sequence rest scope last k => cases rest <;> rfl
  | arguments pos rest scope callee buffer filled k =>
    cases rest with
    | cons node rest => rfl
    | nil =>
      simp only [Control.execute, st.buffered_pardon]
      cases callee.call? (st.buffered buffer filled) k <;> rfl
  | bindings rest body scope k =>
    cases rest with
    | nil => rfl
    | cons b rest =>
      simp only [Control.execute]
      split_ifs <;> rfl
  | enter closure args k =>
    simp only [Control.execute, Store.pardon, World.enter_canceled]
    rfl
  | resume k v => exact st.resume_pardon v h.1
  | perform action args k => exact st.perform_pardon args k h.1
  | report number result => exact h.1.elim

theorem Action.stoppable_provides (m : Nat) : Provides Action.Stoppable m where
  callcc h := h.elim
  host _ h := h.elim
  inner _ h := h.elim
  hosted h := h.elim

namespace State

variable {s s' f : State}

theorem after_pardon (run : Run) (machine : Nat) (e : Effect) :
    (after run machine [] (e.mapStore Store.pardon)).pardon = (after run machine [] e).pardon := by
  have hfail : ∀ st e, (fail run [] st.pardon e).pardon = (fail run [] st e).pardon := by
    intro st e
    simp only [fail, Progress.pardon, Store.endRun_pardon]
  have hsucceed : ∀ st v, (succeed run [] st.pardon v).pardon = (succeed run [] st v).pardon := by
    intro st v
    simp only [succeed, Progress.pardon, Store.endRun_pardon]
  have hconclude : ∀ st, (conclude run [] st.pardon).pardon = (conclude run [] st).pardon := by
    intro st
    unfold conclude
    split
    · exact hsucceed st _
    · exact hfail st _
  cases e with
  | advance st m control => rfl
  | deliver st id v =>
    simp only [Effect.mapStore, after, deliver, List.map_nil]
    split_ifs
    · exact hsucceed st v
    · exact hconclude st
  | idle st => exact hconclude st
  | fail st e => exact hfail st e
  | nest st node scope resumption => rfl

theorem execute_pardon (hs : s.control.Only Action.Stoppable) (hw : s.waiting = []) :
    s.pardon.execute.pardon = s.execute.pardon := by
  obtain ⟨st, machine, control, run, waiting⟩ := s
  subst hw
  show (after run machine [] (control.execute st.pardon machine)).pardon =
    (after run machine [] (control.execute st machine)).pardon
  rw [← after_pardon, Control.execute_pardon st hs, after_pardon]

theorem pay_pardon (s : State) : s.pardon.pay = s.pay.pardon := by
  have hg : s.pardon.isGuarded = s.isGuarded := rfl
  unfold pay
  rw [hg]
  split_ifs <;> rfl

theorem counted_pardon (s : State) : s.pardon.counted = s.counted.pardon := rfl

theorem only_pay {p : Action → Prop} (hs : s.Only p) : s.pay.Only p := by
  unfold pay
  split_ifs
  · exact only_charge hs
  · exact hs

/-! ## The only run, told to stop or not -/

/-- A state of run `first` without runs around it, where the builtins can do no more than write and
tell the evaluation to stop. -/
structure Alone (m budget first : Nat) (l : Ledger) (s : State) : Prop where
  only : s.Only Action.Stoppable
  place : s.pardon.place.On m
  waiting : s.waiting = []
  runs : s.store.runs = first + 1
  books : s.place.Booked m budget first l s.isGuarded

namespace Alone

variable (h : s.Alone m budget first l)

include h

theorem calm : s.pardon.Calm Action.Stoppable m :=
  ⟨⟨⟨⟨h.only.store.world.heap, h.only.store.world.host⟩, h.only.store.buffers⟩, h.only.control,
    h.only.run, h.only.waiting⟩, h.place⟩

theorem pardon : s.pardon.Alone m budget first l :=
  ⟨h.calm.only, h.place, h.waiting, h.runs, h.books.congr rfl rfl rfl rfl⟩

theorem run_eq : s.run.id = first := h.books.run_eq h.waiting

theorem mustBounce_iff :
    s.mustBounce = true ↔ s.isGuarded = true ∧ l.left budget first ≤ 0 := by
  have hcurrent : (s.store.machine m).budget = l.left budget s.run.id := h.books.current
  rw [h.run_eq] at hcurrent
  rw [← hcurrent]
  exact State.mustBounce_iff (s := s.pardon) h.place

/-- A step that is let through is entered for the run. -/
theorem booked_pay (hb : s.mustBounce = false) :
    s.pay.place.Booked m budget first (l.enter s.label) false := by
  have hbooks := State.booked_pay h.place h.pardon.books hb
  rw [pay_pardon] at hbooks
  exact hbooks.congr rfl rfl rfl rfl

/-- A step that does not bounce. It does not take back that the evaluation has to stop. -/
theorem proceed (hb : s.mustBounce = false) (hstep : s.step = .running s') :
    s'.Alone m budget first (l.enter s.label) ∧
      (s.isGuarded = false → s'.control.slack < s.control.slack) ∧
      ∀ reason, s.store.world.canceled = some reason → s'.store.world.canceled = some reason := by
  have hp : ∀ action : Action, action.Stoppable → action.Stoppable := fun _ ha => ha
  rw [step_eq_execute hb] at hstep
  obtain ⟨hcontrol, hwaiting, hruns⟩ := s.pay_eq
  have honly := only_pay h.only
  have hw : s.pay.waiting = [] := hwaiting.trans h.waiting
  obtain ⟨heffect, hrun, -⟩ := advance_of_execute hp honly.control hw hstep
  obtain ⟨hw', hr, hslack⟩ := running_of_execute hp honly.control hw hstep
  have hplace : s.pay.pardon.place.On m := by
    rw [← pay_pardon]
    exact (calm_pay h.calm).place
  have hmach : s.pay.machine = m := hplace.machine
  have hmachines := s.pay.control.execute_machines s.pay.store s.pay.machine
  obtain ⟨hstays, hcanceled⟩ := @Control.execute_stoppable m s.pay.store _ honly.control
  rw [hmach] at heffect hmachines
  rw [heffect] at hmachines hstays hcanceled
  have hmachine : s'.store.machine m = s.pay.store.machine m :=
    congrArg (·[m]?.getD default) hmachines
  refine ⟨⟨?_, ⟨hstays, ?_, ?_, ?_, rfl⟩, hw', ?_, ?_⟩, fun hg => ?_, fun reason hc => ?_⟩
  · have hex := only_execute (Action.stoppable_provides s.pay.machine) honly
    rw [hstep] at hex
    exact hex
  · show s'.run.machine = m
    rw [hrun]
    exact hplace.run
  · show ∀ w ∈ s'.waiting, w.run.machine = m
    rw [hw']
    exact List.forall_mem_nil _
  · show m < s'.store.machines.size
    rw [show s'.store.machines = s.pay.store.machines from hmachines]
    exact hplace.bound
  · rw [hr, hruns, h.runs]
  · exact ((h.booked_pay hb).any _).congr hmachine hr hrun (hw'.trans hw.symm)
  · rw [← hcontrol]
    refine hslack ?_
    rw [isGuarded, hcontrol]
    exact hg
  · refine hcanceled reason ?_
    unfold pay
    split_ifs <;> exact hc

/-- A bounce that is let through. -/
theorem renew (hb : s.mustBounce = true) : s.renew.Alone m budget first (l.bounce first) := by
  obtain ⟨hg, hzero⟩ := (State.mustBounce_iff (s := s.pardon) h.place).1 hb
  have hbooks := booked_renew h.place h.pardon.books hzero
  have hrun : s.pardon.run.id = first := h.run_eq
  rw [hrun] at hbooks
  have honly := only_charge h.only
  refine ⟨⟨⟨honly.store.world, honly.store.buffers⟩, honly.control, honly.run, honly.waiting⟩,
    (calm_renew h.calm).place, h.waiting, h.runs, ?_⟩
  rw [show s.renew.isGuarded = true from hg]
  exact hbooks.congr rfl rfl rfl rfl

/-- An evaluation that has to stop fails where it bounces, whatever the limit. -/
theorem cut {reason : Text} (hb : s.mustBounce = true)
    (hc : s.store.world.canceled = some reason) :
    ∃ target st, s.control.target? = some target ∧
      s.step = .finished st (.error ((Fault.canceled target.name reason).error Pos.none)) ∧
      st.erase = s.store.erase ∧ (st.machine m).bounces = l.bounces first + 1 ∧
      (st.machine m).steps = (l.bounces first + 1) * (budget + 1) ∧
      l.passes first = (l.bounces first + 1) * budget := by
  obtain ⟨target, ht, hstep⟩ := step_eq_bounce hb
  obtain ⟨-, hzero⟩ := (State.mustBounce_iff (s := s.pardon) h.place).1 hb
  have hbounce : s.charge.bounce target = fail s.run s.waiting s.counted
      ((Fault.canceled target.name reason).error Pos.none) := by
    obtain ⟨st, machine, control, run, waiting⟩ := s
    simp only [charge, bounce, counted, Store.modifyMachine] at hc ⊢
    rw [hc]
  refine ⟨target, ?_⟩
  generalize (Fault.canceled target.name reason).error Pos.none = e at hbounce ⊢
  have hcounters := counters_cut h.place h.pardon.books h.waiting h.runs hzero (some e)
  rw [show s.pardon.run = s.run from rfl, counted_pardon, ← Store.machine_pardon,
    Store.endRun_pardon, Store.machine_pardon] at hcounters
  refine ⟨s.counted.endRun s.run (some e), ht, ?_, ?_, hcounters.1, hcounters.2,
    h.books.passes_eq h.waiting hzero⟩
  · rw [hstep, hbounce, h.waiting]
    rfl
  · rw [Store.erase_endRun]
    rfl

/-- A bounce after which the run goes on. -/
theorem eq_renew (hb : s.mustBounce = true) (hstep : s.step = .running s') : s' = s.renew := by
  cases hc : s.store.world.canceled with
  | some reason =>
    obtain ⟨target, st, -, hcut, -⟩ := h.cut hb hc
    rw [hcut] at hstep
    cases hstep
  | none =>
    have hcalm : s.Calm Action.Stoppable m :=
      ⟨h.only, h.place.machine, h.place.run, h.place.waiting, h.place.bound, hc⟩
    rw [step_eq_renew hcalm hb, h.waiting] at hstep
    split_ifs at hstep
    · cases hstep
    · cases hstep
      rfl

end Alone

/-! ## A run and the same run that is never told to stop -/

/-- The states of two evaluations after as many steps. The second one is never told to stop and has
no bounce limit; apart from that they are the same. -/
structure Paired (m budget first : Nat) (l : Ledger) (s f : State) : Prop where
  real : s.Alone m budget first l
  free : f.Alone m budget first l
  limit : (f.settings m).maxBounces = 0
  same : f.erase.pardon = s.erase.pardon

namespace Paired

variable (h : Paired m budget first l s f)

include h

theorem control_eq : f.control = s.control := by
  show f.erase.pardon.control = s.erase.pardon.control
  rw [h.same]

theorem isGuarded_eq : f.isGuarded = s.isGuarded := by
  simp only [isGuarded, h.control_eq]

theorem label_eq : f.label = s.label := by
  simp only [label, isGuarded, h.control_eq, h.free.run_eq, h.real.run_eq]

theorem mustBounce_eq : f.mustBounce = s.mustBounce := by
  rw [Bool.eq_iff_iff, h.free.mustBounce_iff, h.real.mustBounce_iff, h.isGuarded_eq]

/-- A step that does not bounce is the same for both. -/
theorem step_same (hb : s.mustBounce = false) :
    f.stepFreely.erase.pardon = s.step.erase.pardon := by
  have hw : s.erase.waiting = [] := congrArg (List.map Suspended.erase) h.real.waiting
  have hfree : f.pardon.mustBounce = false := h.mustBounce_eq.trans hb
  calc f.stepFreely.erase.pardon
      = f.pardon.erase.execute.pardon := congrArg Progress.pardon (step_erase hfree)
    _ = s.erase.pardon.execute.pardon := congrArg (fun s => (execute s).pardon) h.same
    _ = s.erase.execute.pardon := execute_pardon h.real.only.control hw
    _ = s.step.erase.pardon := congrArg Progress.pardon (step_erase hb).symm

theorem unlimited (hbudget : 1 ≤ budget) : f.pardon.Unlimited Action.Stoppable m := by
  refine ⟨h.free.calm, h.limit, ?_⟩
  show 1 ≤ (f.store.machine m).settings.stackBudget
  rw [show (f.store.machine m).settings.stackBudget = _ from h.free.books.tallies.settings]
  omega

/-- While the run goes on, both take the same step. -/
theorem step (hbudget : 1 ≤ budget) (hstep : s.step = .running s') :
    ∃ l' f', f.stepFreely = .running f' ∧ Paired m budget first l' s' f' ∧ f.note = s.note ∧
      l'.passes first = l.passes first + guards s.note := by
  by_cases hb : s.mustBounce = true
  · have hfree : f.pardon.mustBounce = true := h.mustBounce_eq.trans hb
    obtain ⟨hrenew, hunlimited, -⟩ := unlimited_bounce (h.unlimited hbudget) hfree
    rw [h.real.eq_renew hb hstep]
    refine ⟨l.bounce first, f.pardon.renew, hrenew,
      ⟨h.real.renew hb, h.free.pardon.renew hfree, hunlimited.limit, h.same⟩, ?_, ?_⟩
    · simp only [note, h.mustBounce_eq, hb, if_true]
    · simp only [note, hb, if_true]
      rfl
  · rw [Bool.not_eq_true] at hb
    have hfree : f.pardon.mustBounce = false := h.mustBounce_eq.trans hb
    have hsame := h.step_same hb
    rw [hstep] at hsame
    cases hf : f.stepFreely with
    | finished st result =>
      rw [hf] at hsame
      cases hsame
    | running f' =>
      rw [hf] at hsame
      have halone := (h.free.pardon.proceed hfree hf).1
      rw [show f.pardon.label = s.label from h.label_eq] at halone
      refine ⟨l.enter s.label, f', rfl, ⟨(h.real.proceed hb hstep).1, halone, ?_, ?_⟩, ?_, ?_⟩
      · rw [stepFreely, step_eq_execute hfree] at hf
        rw [settings_execute hf, settings_pay h.free.place]
        exact h.limit
      · injection hsame
      · simp only [note, h.mustBounce_eq, h.label_eq]
      · simp only [note, hb]
        exact passes_enter_label l h.real.run_eq

/-- Where the run ends by itself, both end in the same way. -/
theorem finish (hb : s.mustBounce = false) {st : Store} {result : Except Error Value}
    (hstep : s.step = .finished st result) :
    ∃ st₀, f.stepFreely = .finished st₀ result ∧ st₀.erase.pardon = st.erase.pardon ∧
      l.passes first + guards f.note ≤ (l.bounces first + 1) * budget := by
  have hsame := h.step_same hb
  have henough := (h.real.booked_pay hb).tallies.enough first
  rw [passes_enter_label l h.real.run_eq, Ledger.bounces_enter] at henough
  rw [hstep] at hsame
  cases hfree : f.stepFreely with
  | running f' =>
    rw [hfree] at hsame
    cases hsame
  | finished st₀ result₀ =>
    rw [hfree] at hsame
    injection hsame with hstore hresult
    refine ⟨st₀, hresult ▸ rfl, hstore, ?_⟩
    rw [note, h.mustBounce_eq, h.label_eq, hb]
    exact henough

end Paired

namespace Paired

/-- As long as the run goes on, both are the same. -/
theorem iterate (hbudget : 1 ≤ budget) (h : Paired m budget first l s f) {n : Nat}
    (hn : State.iterate State.step n s = .running s') :
    ∃ l' f', State.iterate stepFreely n f = .running f' ∧ Paired m budget first l' s' f' ∧
      traceFreely n f = trace n s ∧ l'.passes first = l.passes first + guards (trace n s) := by
  induction n generalizing s f l with
  | zero =>
    cases hn
    exact ⟨l, f, rfl, h, rfl, rfl⟩
  | succ n ih =>
    cases hstep : s.step with
    | finished st result =>
      rw [iterate_succ_finished hstep] at hn
      cases hn
    | running t =>
      rw [iterate_succ_running hstep] at hn
      obtain ⟨l₁, g, hg, hpaired, hnote, hpasses⟩ := h.step hbudget hstep
      obtain ⟨l', f', hf, hpaired', htrace, hpasses'⟩ := ih hpaired hn
      have hs : trace (n + 1) s = s.note ++ trace n t := record_succ_running hstep n
      have hfree : traceFreely (n + 1) f = f.note ++ traceFreely n g := record_succ_running hg n
      refine ⟨l', f', (iterate_succ_running hg n).trans hf, hpaired', ?_, ?_⟩
      · rw [hs, hfree, hnote, htrace]
      · rw [hs, guards_append, hpasses', hpasses, Nat.add_assoc]

end Paired

/-- An evaluation that has to stop goes on without a bounce up to the step that ends it, or to the
bounce where it is cut short. -/
theorem Alone.last (h : s.Alone m budget first l) {reason : Text}
    (hc : s.store.world.canceled = some reason) :
    ∃ n x, iterate State.step n s = .running x ∧ x.store.world.canceled = some reason ∧
      (x.store.machine m).bounces = l.bounces first ∧
      (x.mustBounce = false → ∃ st result, x.step = .finished st result) := by
  induction hf : 3 * ((l.bounces first + 1) * budget - l.passes first) + s.control.slack
    using Nat.strong_induction_on generalizing s l with
  | _ fuel ih =>
  by_cases hb : s.mustBounce = true
  · refine ⟨0, s, rfl, hc, h.books.bounces_eq h.runs, fun hb' => ?_⟩
    rw [hb] at hb'
    cases hb'
  · rw [Bool.not_eq_true] at hb
    cases hstep : s.step with
    | finished st result =>
      exact ⟨0, s, rfl, hc, h.books.bounces_eq h.runs, fun _ => ⟨st, result, hstep⟩⟩
    | running s' =>
      obtain ⟨h', hslack, hcanceled⟩ := h.proceed hb hstep
      have hpasses := passes_enter_label l h.run_eq
      -- A guard is passed at least every third step, and only so many are left to be passed.
      have hless : 3 * (((l.enter s.label).bounces first + 1) * budget -
          (l.enter s.label).passes first) + s'.control.slack < fuel := by
        have hle := Control.slack_le s'.control
        rw [Ledger.bounces_enter, hpasses]
        cases hg : s.isGuarded with
        | true =>
          have hone : guards [s.label] = 1 := by simp [guards, label, hg]
          have hleft : ¬ l.left budget first ≤ 0 := fun hzero =>
            Bool.false_ne_true (hb.symm.trans (h.mustBounce_iff.2 ⟨hg, hzero⟩))
          unfold Ledger.left at hleft
          omega
        | false =>
          have hzero : guards [s.label] = 0 := by simp [guards, label, hg]
          have hlt := hslack hg
          omega
      obtain ⟨n, x, hn, hx, hxb, hlast⟩ := ih _ hless h' (hcanceled reason hc) rfl
      refine ⟨n + 1, x, (iterate_succ_running hstep n).trans hn, hx, ?_, hlast⟩
      rw [hxb, Ledger.bounces_enter]

/-- Whoever comes to a guard and goes on to the end passes that guard. -/
theorem guards_pos_of_finished (hf : f.pardon.Unlimited Action.Stoppable m)
    (hg : f.isGuarded = true) {n : Nat} {st : Store} {result : Except Error Value}
    (h : iterate stepFreely n f = .finished st result) : 0 < guards (traceFreely n f) := by
  have hpass : ∀ {y : State} {n : Nat}, y.isGuarded = true → y.mustBounce = false →
      iterate stepFreely n y = .finished st result → 0 < guards (traceFreely n y) := by
    intro y n hg hb h
    have hone : guards [y.label] = 1 := by simp [guards, label, hg]
    cases n with
    | zero => cases h
    | succ n =>
      unfold traceFreely
      cases hstep : y.stepFreely with
      | running y' =>
        rw [record_succ_running hstep, guards_append, note, hb]
        exact Nat.add_pos_left (hone ▸ Nat.one_pos) _
      | finished st' result' =>
        rw [record_succ_finished hstep, note, hb]
        exact hone ▸ Nat.one_pos
  by_cases hb : f.mustBounce = true
  · have hbounce := unlimited_bounce hf hb
    have hstep : f.stepFreely = .running f.pardon.renew := hbounce.1
    cases n with
    | zero => cases h
    | succ n =>
      have htrace : traceFreely (n + 1) f = f.note ++ traceFreely n f.pardon.renew :=
        record_succ_running hstep n
      rw [iterate_succ_running hstep] at h
      rw [htrace, guards_append]
      exact Nat.add_pos_right _ (hpass hg hbounce.2.2 h)
  · exact hpass hg (Bool.not_eq_true _ ▸ hb) h

end State

namespace Store

variable {st : Store}

/-- The evaluation of a node is told to stop, for the first time when it has passed a number of
guards. If it is told so before it starts, that counts as the first guard. -/
def CanceledAt (st : Store) (m : Nat) (node : Node) (scope : ScopeId) (passed : Nat)
    (reason : Text) : Prop :=
  (st.world.canceled = some reason ∧ passed = 1) ∨
    (reason = bytes "context canceled" ∧ ∃ n x args k,
      State.iterate State.step n (st.start m node scope) = .running x ∧
      x.store.world.canceled = none ∧ x.control = .perform .stop args k ∧
      guards ((st.start m node scope).trace n) = passed)

theorem alone_start (hs : st.Only Action.Stoppable) (hm : m < st.machines.size)
    (hdepth : (st.machine m).depth = 0) (hbudget : (st.machine m).settings.stackBudget = budget)
    (node : Node) (scope : ScopeId) :
    (st.start m node scope).Alone m budget st.runs .blank := by
  have hpardon : st.pardon.Only Action.Stoppable := ⟨⟨hs.world.heap, hs.world.host⟩, hs.buffers⟩
  exact ⟨only_start hs m node scope, (calm_start hpardon hm rfl node scope).place, rfl, rfl,
    booked_start hm hdepth hbudget node scope⟩

theorem paired_start (hs : st.Only Action.Stoppable) (hm : m < st.machines.size)
    (hdepth : (st.machine m).depth = 0) (hbudget : (st.machine m).settings.stackBudget = budget)
    (node : Node) (scope : ScopeId) :
    State.Paired m budget st.runs .blank (st.start m node scope)
      ((st.configure m budget 0).start m node scope) := by
  have hsettings := settings_configure hm budget 0
  have hfree : ((st.configure m budget 0).start m node scope).Alone m budget st.runs .blank := by
    have honly : (st.configure m budget 0).Only Action.Stoppable := ⟨hs.world, hs.buffers⟩
    refine alone_start honly ?_ ?_ ?_ node scope
    · rw [configure, size_modifyMachine]
      exact hm
    · rw [configure, machine_modifyMachine hm]
      exact hdepth
    · rw [hsettings]
  refine ⟨alone_start hs hm hdepth hbudget node scope, hfree, ?_, rfl⟩
  rw [settings_start, hsettings]
  rfl

/-- It comes to a state where it has to stop, and the next bounce is the one that is called for. -/
theorem CanceledAt.reached (hs : st.Only Action.Stoppable) (hm : m < st.machines.size)
    (hdepth : (st.machine m).depth = 0) (hbudget : (st.machine m).settings.stackBudget = budget)
    (hb : 1 ≤ budget) {node : Node} {scope : ScopeId} {passed : Nat} {reason : Text}
    (h : st.CanceledAt m node scope passed reason) :
    ∃ n x l, State.iterate State.step n (st.start m node scope) = .running x ∧
      x.store.world.canceled = some reason ∧ x.Alone m budget st.runs l ∧
      l.bounces st.runs + 1 = (passed + budget - 1) / budget := by
  rcases h with ⟨hreason, rfl⟩ | ⟨rfl, n, x, args, k, hn, hnone, hstop, hpassed⟩
  · refine ⟨0, _, .blank, rfl, hreason, alone_start hs hm hdepth hbudget node scope, ?_⟩
    rw [Nat.add_sub_cancel_left, Nat.div_self hb]
    rfl
  · obtain ⟨l, f, -, hpaired, -, hpasses⟩ :=
      (paired_start hs hm hdepth hbudget node scope).iterate hb hn
    have hguard : x.isGuarded = false := by
      rw [State.isGuarded, hstop]
      rfl
    have hbounce : x.mustBounce = false := by
      rw [State.mustBounce, hguard, Bool.false_and]
    obtain ⟨x', hstep, hcanceled⟩ : ∃ x', x.step = .running x' ∧
        x'.store.world.canceled = some (bytes "context canceled") := by
      obtain ⟨store, machine, control, run, waiting⟩ := x
      subst hstop
      refine ⟨_, rfl, ?_⟩
      show some (store.world.canceled.getD _) = _
      rw [hnone, Option.getD_none]
    have hx := (hpaired.real.proceed hbounce hstep).1
    have hn' : State.iterate State.step (n + 1) (st.start m node scope) = .running x' := by
      rw [State.iterate_add hn, State.iterate_succ_running hstep]
      rfl
    refine ⟨n + 1, x', l.enter x.label, hn', hcanceled, hx, ?_⟩
    -- The run has passed a guard since its last bounce, and no more than its budget.
    have hbooks := hpaired.real.books
    rw [hguard] at hbooks
    have hlt := hbooks.settled st.runs (Finset.mem_Ico.2 ⟨le_rfl, by
      show st.runs < x.store.runs
      rw [hpaired.real.runs]
      omega⟩)
    have hle := hbooks.tallies.enough st.runs
    have hcount : l.passes st.runs = passed := by
      rw [hpasses, hpassed]
      exact Nat.zero_add _
    rw [Ledger.bounces_enter]
    symm
    refine Nat.div_eq_of_lt_le ?_ ?_
    · rw [Nat.add_mul]
      omega
    · rw [Nat.add_mul _ 1]
      omega

/-- An evaluation that is told to stop is cut short at its next bounce, and not before. If the
evaluation that is never told so ends up to there, both end in the same way. Otherwise the run
fails at that bounce, also where the bounce is one too many; it has taken the same steps, and leaves
the output and the scopes that the other one has at that guard. -/
theorem runWithin_canceled (hs : st.Only Action.Stoppable) (hm : m < st.machines.size)
    (hdepth : (st.machine m).depth = 0) (hbudget : (st.machine m).settings.stackBudget = budget)
    (hb : 1 ≤ budget) {node : Node} {scope : ScopeId} {passed : Nat} {reason : Text}
    (h : st.CanceledAt m node scope passed reason) :
    let free := (st.configure m budget 0).start m node scope
    let round := (passed + budget - 1) / budget
    ∃ n st' result, st.runWithin n m node scope = some (st', result) ∧
      (∀ n₀ st₀ result₀, State.iterate State.stepFreely n₀ free = .finished st₀ result₀ →
        guards (free.traceFreely n₀) ≤ round * budget →
        result = result₀ ∧ st'.world.output = st₀.world.output ∧
          st'.world.heap = st₀.world.heap) ∧
      ((∀ n₀ st₀ result₀, State.iterate State.stepFreely n₀ free = .finished st₀ result₀ →
          round * budget < guards (free.traceFreely n₀)) →
        (st'.machine m).bounces = round ∧ (st'.machine m).steps = round * (budget + 1) ∧
          ∃ n₀ s target, State.iterate State.stepFreely n₀ free = .running s ∧
            s.control.target? = some target ∧
            result = .error ((Fault.canceled target.name reason).error Pos.none) ∧
            guards (free.traceFreely n₀) = round * budget ∧
            (st.start m node scope).trace n = free.traceFreely n₀ ∧
            st'.world.output = s.store.world.output ∧ st'.world.heap = s.store.world.heap) := by
  intro free round
  obtain ⟨n₁, x, l₁, hx, hcanceled, halone, hround⟩ := h.reached hs hm hdepth hbudget hb
  obtain ⟨n₂, y, hy, hycanceled, hybounces, hlast⟩ := halone.last hcanceled
  have hrun : State.iterate State.step (n₁ + n₂) (st.start m node scope) = .running y := by
    rw [State.iterate_add hx]
    exact hy
  obtain ⟨l, f, hf, hpaired, htrace, hpasses⟩ :=
    (paired_start hs hm hdepth hbudget node scope).iterate hb hrun
  have hcount : l.passes st.runs = guards (free.traceFreely (n₁ + n₂)) := by
    rw [hpasses, htrace]
    exact Nat.zero_add _
  have hbounces : l.bounces st.runs + 1 = round := by
    rw [← hpaired.real.books.bounces_eq hpaired.real.runs]
    exact (congrArg (· + 1) hybounces).trans hround
  by_cases hbounce : y.mustBounce = true
  · obtain ⟨target, st', ht, hstep, herase, hb', hs', hp⟩ := hpaired.real.cut hbounce hycanceled
    rw [hbounces] at hb' hs' hp
    have hguarded : f.isGuarded = true :=
      hpaired.isGuarded_eq.trans (hpaired.real.mustBounce_iff.1 hbounce).1
    have hend := State.iterate_last hrun hstep
    refine ⟨n₁ + n₂ + 1, st', _, State.runWithin_eq_some_iff.2 hend, ?_, fun _ =>
      ⟨hb', hs', n₁ + n₂, f, target, hf, hpaired.control_eq ▸ ht, rfl, hcount ▸ hp, ?_, ?_, ?_⟩⟩
    · intro n₀ st₀ result₀ hn₀ hle
      obtain ⟨d, rfl⟩ := Nat.exists_eq_add_of_lt (State.lt_of_iterate_finished hf hn₀)
      rw [Nat.add_assoc] at hn₀ hle
      rw [State.iterate_add hf] at hn₀
      have hpos := State.guards_pos_of_finished (hpaired.unlimited hb) hguarded hn₀
      have happend : free.traceFreely (n₁ + n₂ + (d + 1)) =
          free.traceFreely (n₁ + n₂) ++ f.traceFreely (d + 1) := State.record_add hf (d + 1)
      rw [happend, State.guards_append, ← hcount, hp] at hle
      omega
    · have hlast : (st.start m node scope).trace (n₁ + n₂ + 1) =
          (st.start m node scope).trace (n₁ + n₂) ++ y.note := State.record_last hrun hstep
      rw [hlast, htrace, State.note, hbounce]
      exact List.append_nil _
    · exact (congrArg (·.world.output) herase).trans
        (congrArg (·.store.world.output) hpaired.same).symm
    · exact (congrArg (·.world.heap) herase).trans
        (congrArg (·.store.world.heap) hpaired.same).symm
  · rw [Bool.not_eq_true] at hbounce
    obtain ⟨st', result, hstep⟩ := hlast hbounce
    obtain ⟨st₁, hfree, hstore, hle⟩ := hpaired.finish hbounce hstep
    have hend := State.iterate_last hrun hstep
    have hend₁ := State.iterate_last hf hfree
    refine ⟨n₁ + n₂ + 1, st', result, State.runWithin_eq_some_iff.2 hend, ?_, fun hall => ?_⟩
    · intro n₀ st₀ result₀ hn₀ _
      obtain ⟨rfl, rfl⟩ := State.iterate_finished_unique hend₁ hn₀
      exact ⟨rfl, (congrArg (·.world.output) hstore).symm, (congrArg (·.world.heap) hstore).symm⟩
    · have hlt := hall _ _ _ hend₁
      have hlast : free.traceFreely (n₁ + n₂ + 1) = free.traceFreely (n₁ + n₂) ++ f.note :=
        State.record_last hf hfree
      rw [hlast, State.guards_append, ← hcount] at hlt
      rw [hbounces] at hle
      exact absurd (hlt.trans_le hle) (lt_irrefl _)

/-- Tells the evaluation to stop, and then calls a function for ever. -/
def stopAndCall : Node :=
  .program Pos.none [.call Pos.none (.identifier Pos.none (bytes "stop")) [], callForever]

/-- A global scope with a builtin that tells the evaluation to stop. -/
def stoppableStore : Store := ofBuiltins .silent [("stop", .stop)]

theorem stoppableStore_only : stoppableStore.Only Action.Stoppable :=
  ofBuiltins_only ⟨trivial, trivial⟩ (by simp [Action.Only, Action.Stoppable]) fun _ h => h.elim

/-- With a budget of four steps, the evaluation is told to stop after the sixth guard and goes on
up to the eighth. -/
theorem stopAndCall_canceled :
    ∃ n st result, (stoppableStore.configure 0 4 0).runWithin n 0 stopAndCall 0 =
      some (st, result) ∧ (st.machine 0).bounces = 2 ∧ (st.machine 0).steps = 10 := by
  have honly : (stoppableStore.configure 0 4 0).Only Action.Stoppable :=
    ⟨stoppableStore_only.world, stoppableStore_only.buffers⟩
  have hstop : (stoppableStore.configure 0 4 0).CanceledAt 0 stopAndCall 0 6
      (bytes "context canceled") := by
    have hguards :
        guards (((stoppableStore.configure 0 4 0).start 0 stopAndCall 0).trace 7) = 6 := by
      decide +kernel
    exact .inr ⟨rfl, 7, _, _, _, rfl, rfl, rfl, hguards⟩
  obtain ⟨n, st, result, hn, -, -⟩ :=
    runWithin_canceled honly (show 0 < 1 by decide) rfl rfl (show 1 ≤ 4 by decide) hstop
  have hend : ((stoppableStore.configure 0 4 0).runWithin 60 0 stopAndCall 0).any
      (fun x => (x.1.machine 0).bounces == 2 && (x.1.machine 0).steps == 10) = true := by
    decide +kernel
  obtain ⟨⟨st', result'⟩, h, hx⟩ := Option.any_eq_true _ _ |>.1 hend
  obtain ⟨rfl, rfl⟩ := State.iterate_finished_unique (State.runWithin_eq_some_iff.1 hn)
    (State.runWithin_eq_some_iff.1 h)
  rw [Bool.and_eq_true, beq_iff_eq, beq_iff_eq] at hx
  exact ⟨n, st, result, hn, hx⟩

end Store

end Mycel
