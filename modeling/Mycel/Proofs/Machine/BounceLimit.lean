import Mycel.Proofs.Machine.Accounting

/-!
# The bounce limit

With a limit on bounces every run ends, whatever the program does: between two guards there are at
most two steps (`Control.slack`), and only so many guards can be passed before the limit is
exceeded. Up to there the run is what it would be without the limit. `State.ends_or_cut` says so
for the states of a run that has only the builtins that write, and `Store.runWithin_limited` for
the run as a whole.
-/

namespace Mycel

variable {p : Action → Prop} {m budget limit first : Nat} {l : Ledger}

/-- The number of steps that had to pass a guard. -/
def guards (labels : List Label) : Nat := labels.countP (·.guarded)

theorem passes_eq_guards {labels : List Label} {i : Nat} (h : ∀ x ∈ labels, x.run = i) :
    passes labels i = guards labels := by
  refine List.countP_congr fun x hx => ?_
  simp [h x hx]

/-- Two machines that have come to the same end have counted the same. -/
theorem Store.Closed.counters_eq {st st' : Store} {l' : Ledger} (h : st.Closed m budget first l)
    (h' : st'.Closed m budget first l') (hb : 1 ≤ budget) (hruns : st.runs = first + 1)
    (hruns' : st'.runs = first + 1) (hpasses : l.passes first = l'.passes first) :
    (st.machine m).steps = (st'.machine m).steps ∧
      (st.machine m).bounces = (st'.machine m).bounces := by
  have hbounces : (st.machine m).bounces = (st'.machine m).bounces := by
    rw [h.bounces_eq hb, h'.bounces_eq hb, hruns, hruns', Nat.Ico_succ_singleton,
      Finset.sum_singleton, Finset.sum_singleton, hpasses]
  refine ⟨?_, hbounces⟩
  rw [h.tallies.steps, h'.tallies.steps, hbounces, hruns, hruns', Nat.Ico_succ_singleton,
    Finset.sum_singleton, Finset.sum_singleton, hpasses]

/-! ## Steps without a guard -/

/-- How many steps there are, at most, before the next guard. -/
def Control.slack : Control → Nat
  | .perform _ _ _ => 2
  | .resume (.final _) _ => 1
  | _ => 0

theorem Control.slack_le (c : Control) : c.slack ≤ 2 := by
  unfold slack
  split <;> omega

theorem Control.slack_resume_le (k : Continuation) (v : Value) : (resume k v).slack ≤ 1 := by
  cases k <;> simp [slack]

/-- An effect that starts no run, and after a step without a guard is nearer to one. -/
def Effect.Nears (c : Control) : Effect → Prop
  | .advance _ _ c' => c.target? = none → c'.slack < c.slack
  | .nest _ _ _ _ => False
  | _ => True

theorem Effect.nears_advance {st : Store} {c c' : Control} (h : c.target?.isSome = true) :
    (Effect.advance st m c').Nears c := by
  intro hnone
  rw [hnone] at h
  cases h

namespace Store

variable (st : Store)

theorem nears_evaluate (scope : ScopeId) (k : Continuation) (node : Node) :
    (st.evaluate m scope k node).Nears (.evaluate node scope k) := by
  cases node with
  | identifier pos name =>
    simp only [evaluate]
    split
    · exact Effect.nears_advance rfl
    · trivial
  | assign pos target value =>
    cases target with
    | identifier => exact Effect.nears_advance rfl
    | _ => trivial
  | lambda pos name params body => exact Effect.nears_advance rfl
  | missing => trivial
  | _ => exact Effect.nears_advance rfl

theorem nears_resume (hp : ∀ action, p action → action.Stoppable) (v : Value) {k : Continuation}
    (hk : k.Only p) : (st.resume m v k).Nears (.resume k v) := by
  cases k with
  | final run => trivial
  | assign pos name scope k =>
    simp only [resume]
    split
    · exact Effect.nears_advance rfl
    · trivial
  | right pos o left k =>
    simp only [resume]
    split
    · exact Effect.nears_advance rfl
    · trivial
  | branch whenTrue whenFalse scope k =>
    simp only [resume]
    split_ifs <;> exact Effect.nears_advance rfl
  | again f k =>
    simp only [resume, apply]
    split
    · exact Effect.nears_advance rfl
    · trivial
  | hosted number => exact (hp _ hk).elim
  | _ => exact Effect.nears_advance rfl

theorem nears_perform (hp : ∀ action, p action → action.Stoppable) (args : List Value)
    (k : Continuation) {action : Action} (h : action.Only p) :
    (st.perform m args k action).Nears (.perform action args k) := by
  have hwrite : ∀ primitive t, (st.writeFor m primitive t k).Nears (.perform action args k) := by
    intro primitive t
    unfold writeFor
    split
    · exact fun _ => Nat.lt_succ_of_le (Control.slack_resume_le k _)
    · trivial
  cases action with
  | print | println => exact hwrite _ _
  | stop => exact fun _ => Nat.lt_succ_of_le (Control.slack_resume_le k _)
  | escape machine k => exact (hp _ h.1).elim
  | _ => exact (hp _ h).elim

end Store

theorem Control.nears_execute (hp : ∀ action, p action → action.Stoppable) (st : Store)
    {c : Control} (h : c.Only p) : (c.execute st m).Nears c := by
  cases c with
  | evaluate node scope k => exact st.nears_evaluate scope k node
  | sequence rest scope last k => cases rest <;> exact Effect.nears_advance rfl
  | arguments pos rest scope callee buffer filled k =>
    cases rest with
    | nil =>
      simp only [Control.execute]
      split
      · exact Effect.nears_advance rfl
      · trivial
    | cons node rest => exact Effect.nears_advance rfl
  | bindings rest body scope k =>
    cases rest with
    | nil => exact Effect.nears_advance rfl
    | cons b rest =>
      simp only [Control.execute]
      split_ifs <;> exact Effect.nears_advance rfl
  | enter closure args k => exact Effect.nears_advance rfl
  | resume k v => exact st.nears_resume hp v h.1
  | perform action args k => exact st.nears_perform hp args k h.1
  | report number result => exact (hp _ h.1).elim

namespace State

variable {s s' : State}

/-- Where no run waits, everything but a next step ends the run. -/
theorem advance_of_execute (hp : ∀ action, p action → action.Stoppable) (hs : s.control.Only p)
    (hw : s.waiting = []) (h : s.execute = .running s') :
    s.control.execute s.store s.machine = .advance s'.store s'.machine s'.control ∧
      s'.run = s.run ∧ s'.waiting = [] := by
  have hnears := Control.nears_execute (m := s.machine) hp s.store hs
  refine advance_of_running hw (fun st node scope resumption he => ?_) h
  rw [he] at hnears
  exact hnears.elim

theorem running_of_execute (hp : ∀ action, p action → action.Stoppable) (hs : s.control.Only p)
    (hw : s.waiting = []) (h : s.execute = .running s') :
    s'.waiting = [] ∧ s'.store.runs = s.store.runs ∧
      (s.isGuarded = false → s'.control.slack < s.control.slack) := by
  obtain ⟨heffect, -, hw'⟩ := advance_of_execute hp hs hw h
  have hnears := Control.nears_execute (m := s.machine) hp s.store hs
  have hruns := s.control.execute_runs s.store s.machine
  rw [heffect] at hnears hruns
  refine ⟨hw', hruns, fun hg => hnears ?_⟩
  rwa [isGuarded, Option.isSome_eq_false_iff, Option.isNone_iff_eq_none] at hg

end State

/-! ## The only run -/

namespace Place.Booked

variable {x : Place} {pending : Bool} (h : x.Booked m budget first l pending)

include h

theorem run_eq (hw : x.waiting = []) : x.run.id = first := by
  have hsaves := h.saves
  rw [hw] at hsaves
  exact hsaves.1

theorem bounces_eq (hr : x.store.runs = first + 1) :
    (x.store.machine m).bounces = l.bounces first := by
  have hb := h.tallies.bounces
  rwa [hr, Nat.Ico_succ_singleton, Finset.sum_singleton] at hb

theorem steps_eq (hr : x.store.runs = first + 1) :
    (x.store.machine m).steps = l.passes first + l.bounces first := by
  have hb := h.tallies.steps
  rwa [h.bounces_eq hr, hr, Nat.Ico_succ_singleton, Finset.sum_singleton] at hb

/-- Where the budget is used up, the run has passed all the guards that it was allowed. -/
theorem passes_eq (hw : x.waiting = []) (hzero : (x.store.machine m).budget ≤ 0) :
    l.passes first = (l.bounces first + 1) * budget := by
  have hcurrent := h.current
  have henough := h.tallies.enough first
  rw [h.run_eq hw, Ledger.left] at hcurrent
  omega

end Place.Booked

namespace State

variable {s s' : State}

/-- What the machine has counted, where a bounce ends the only run. -/
theorem counters_cut {pending : Bool} (hs : s.place.On m)
    (h : s.place.Booked m budget first l pending) (hw : s.waiting = [])
    (hr : s.store.runs = first + 1) (hzero : (s.store.machine m).budget ≤ 0)
    (failure : Option Error) :
    ((s.counted.endRun s.run failure).machine m).bounces = l.bounces first + 1 ∧
      ((s.counted.endRun s.run failure).machine m).steps =
        (l.bounces first + 1) * (budget + 1) := by
  have hbound : m < s.counted.machines.size := s.size_counted.symm ▸ hs.bound
  have hrun : s.run.machine = m := hs.run
  rw [Store.machine_endRun hbound hrun, machine_counted hs]
  refine ⟨congrArg (· + 1) (h.bounces_eq hr), ?_⟩
  have hsteps : (s.store.machine m).steps = _ := h.steps_eq hr
  show (s.store.machine m).steps + 1 = _
  rw [hsteps, h.passes_eq hw hzero, Nat.mul_add (l.bounces first + 1)]
  omega

/-! ## Runs with a limit -/

/-- A state of a run with a limit: the run is run `first`, none is around it, and so far it has
kept to the limit. -/
structure Limited (m budget limit first : Nat) (l : Ledger) (s : State) : Prop
    extends s.Calm Action.Primitive m where
  waiting : s.waiting = []
  runs : s.store.runs = first + 1
  books : s.place.Booked m budget first l s.isGuarded
  setting : (s.settings m).maxBounces = limit
  within : l.bounces first ≤ limit

namespace Limited

variable (h : s.Limited m budget limit first l)

include h

theorem run_eq : s.run.id = first := h.books.run_eq h.waiting

theorem bounces_eq : (s.store.machine m).bounces = l.bounces first := h.books.bounces_eq h.runs

theorem steps_eq : (s.store.machine m).steps = l.passes first + l.bounces first :=
  h.books.steps_eq h.runs

/-- A step that does not bounce. -/
theorem proceed (hb : s.mustBounce = false) (hstep : s.step = .running s') :
    s'.Limited m budget limit first (l.enter s.label) ∧
      (s.isGuarded = false → s'.control.slack < s.control.slack) := by
  have hc := Action.primitive_confined m
  have hbooks := booked_proceed hc h.toCalm h.books hb
  rw [hstep] at hbooks
  rw [step_eq_execute hb] at hstep
  obtain ⟨hcontrol, hwaiting, hruns⟩ := s.pay_eq
  obtain ⟨hw, hr, hslack⟩ := running_of_execute (fun _ => Action.Primitive.stoppable)
    (calm_pay h.toCalm).only.control (hwaiting.trans h.waiting) hstep
  refine ⟨⟨calm_execute hc (calm_pay h.toCalm) hstep, hw, ?_, hbooks, ?_, ?_⟩, fun hg => ?_⟩
  · rw [hr, hruns, h.runs]
  · rw [settings_execute hstep, settings_pay h.place]
    exact h.setting
  · rw [Ledger.bounces_enter]
    exact h.within
  · have hg' : s.pay.isGuarded = false := by
      rw [isGuarded, hcontrol]
      exact hg
    exact hcontrol ▸ hslack hg'

/-- A bounce that is let through. -/
theorem renew (hb : s.mustBounce = true) (hlt : l.bounces first < limit) :
    s.step = .running s.renew ∧ s.renew.Limited m budget limit first (l.bounce first) := by
  obtain ⟨hg, hzero⟩ := (mustBounce_iff h.place).1 hb
  refine ⟨?_, ?_⟩
  · rw [step_eq_renew h.toCalm hb, h.bounces_eq, h.setting, if_neg]
    omega
  · have hbooks := booked_renew h.place h.books hzero
    rw [h.run_eq] at hbooks
    refine ⟨calm_renew h.toCalm, h.waiting, h.runs, ?_, ?_, ?_⟩
    · rw [show s.renew.isGuarded = true from hg]
      exact hbooks
    · rw [settings_renew h.place]
      exact h.setting
    · simpa [Ledger.bounce] using hlt

/-- A bounce too many. -/
theorem cut (hb : s.mustBounce = true) (hge : limit ≤ l.bounces first) (hpos : 1 ≤ limit) :
    ∃ st, s.step = .finished st (.error ((Fault.bounceLimit limit).error Pos.none)) ∧
      st.erase = s.store.erase ∧ (st.machine m).bounces = limit + 1 ∧
      (st.machine m).steps = (limit + 1) * (budget + 1) ∧
      l.passes first = (limit + 1) * budget := by
  obtain ⟨-, hzero⟩ := (mustBounce_iff h.place).1 hb
  have hle : l.bounces first = limit := le_antisymm h.within hge
  obtain ⟨hbounces, hsteps⟩ := counters_cut h.place h.books h.waiting h.runs hzero
    (some ((Fault.bounceLimit limit).error Pos.none))
  have hpasses := h.books.passes_eq h.waiting hzero
  rw [hle] at hbounces hsteps hpasses
  refine ⟨s.counted.endRun s.run (some ((Fault.bounceLimit limit).error Pos.none)), ?_, ?_,
    hbounces, hsteps, hpasses⟩
  · rw [step_eq_renew h.toCalm hb, h.bounces_eq, h.setting, if_pos (by omega), h.waiting]
    rfl
  · rw [Store.erase_endRun]
    rfl

end Limited

/-! ## How a run with a limit ends -/

/-- The machine comes to `q` and the evaluation without guards to `q'`, both from the same state
and after steps of run `first` alone. By then the run has passed `count` guards. -/
def Leads (first : Nat) (l : Ledger) (s : State) (q q' : Progress) (count : Nat) : Prop :=
  ∃ n j, iterate step n s = q ∧ iterate execute j s.erase = q' ∧
    (∀ x ∈ plainTrace j s.erase, x.run = first) ∧
    l.passes first + guards (plainTrace j s.erase) = count

variable {q q' : Progress} {count : Nat}

theorem Leads.bounce (hstep : s.step = .running s.renew)
    (h : s.renew.Leads first (l.bounce first) q q' count) : s.Leads first l q q' count := by
  obtain ⟨n, j, hn, hj, hx, hcount⟩ := h
  exact ⟨n + 1, j, (iterate_succ_running hstep n).trans hn, hj, hx, hcount⟩

theorem guards_append (xs ys : List Label) : guards (xs ++ ys) = guards xs + guards ys :=
  List.countP_append

/-- Enters a step of run `first`. -/
theorem passes_enter_label (l : Ledger) (hrun : s.run.id = first) :
    (l.enter s.label).passes first = l.passes first + guards [s.label] := by
  rw [Ledger.passes_enter, passes_eq_guards]
  intro x hx
  rw [List.mem_singleton.1 hx]
  exact hrun

theorem Leads.proceed (hb : s.mustBounce = false) (hrun : s.run.id = first)
    (hstep : s.step = .running s') (h : s'.Leads first (l.enter s.label) q q' count) :
    s.Leads first l q q' count := by
  obtain ⟨n, j, hn, hj, hx, hcount⟩ := h
  have herase := step_erase hb
  rw [hstep] at herase
  have htrace : plainTrace (j + 1) s.erase = [s.label] ++ plainTrace j s'.erase :=
    record_succ_running herase.symm j
  refine ⟨n + 1, j + 1, (iterate_succ_running hstep n).trans hn,
    (iterate_succ_running herase.symm j).trans hj, ?_, ?_⟩
  · rw [htrace]
    exact List.forall_mem_cons.2 ⟨hrun, hx⟩
  · rw [htrace, guards_append, ← Nat.add_assoc, ← passes_enter_label l hrun]
    exact hcount

/-- A run with a limit ends by itself, or it is cut short where it would come to one guard more. -/
inductive Ending (m budget limit first : Nat) : Progress → Progress → Nat → Prop
  | freely {st : Store} {result : Except Error Value} {l : Ledger}
      (closed : st.Closed m budget first l) (runs : st.runs = first + 1)
      (within : l.bounces first ≤ limit) :
      Ending m budget limit first (.finished st result) (.finished st.erase result) (l.passes first)
  | cut {st : Store} {x : State} (guarded : x.isGuarded = true) (store : st.erase = x.store)
      (bounces : (st.machine m).bounces = limit + 1)
      (steps : (st.machine m).steps = (limit + 1) * (budget + 1)) :
      Ending m budget limit first
        (.finished st (.error ((Fault.bounceLimit limit).error Pos.none))) (.running x)
        ((limit + 1) * budget)

namespace Limited

/-- How much a run can still do, at most. A guard is passed or bounced at least every third step.
-/
def fuel (budget limit first : Nat) (l : Ledger) (c : Control) : Nat :=
  3 * ((limit + 1) * (budget + 1) - (l.passes first + l.bounces first)) + c.slack

/-- There is room for another guard. -/
theorem room (h : s.Limited m budget limit first l) :
    l.passes first + l.bounces first < (limit + 1) * (budget + 1) := by
  have henough := h.books.tallies.enough first
  have hwithin : (l.bounces first + 1) * (budget + 1) ≤ (limit + 1) * (budget + 1) :=
    Nat.mul_le_mul_right _ (Nat.succ_le_succ h.within)
  rw [Nat.mul_add (l.bounces first + 1)] at hwithin
  omega

/-- A step that ends the run. -/
theorem finish (h : s.Limited m budget limit first l) (hb : s.mustBounce = false) {st : Store}
    {result : Except Error Value} (hstep : s.step = .finished st result) :
    ∃ q q' count, s.Leads first l q q' count ∧ Ending m budget limit first q q' count := by
  have herase := step_erase hb
  have hbooks := booked_proceed (Action.primitive_confined m) h.toCalm h.books hb
  rw [hstep] at herase hbooks
  have hlabel : ∀ x ∈ [s.label], x.run = first := fun x hx => by
    rw [List.mem_singleton.1 hx]
    exact h.run_eq
  have hleads : s.Leads first l (.finished st result) (.finished st.erase result)
      ((l.enter s.label).passes first) := by
    refine ⟨1, 1, iterate_succ_finished hstep 0, iterate_succ_finished herase.symm 0, ?_, ?_⟩
    · rw [plainTrace, record_succ_finished herase.symm]
      exact hlabel
    · rw [plainTrace, record_succ_finished herase.symm]
      exact (passes_enter_label l h.run_eq).symm
  refine ⟨_, _, _, hleads, .freely hbooks ?_ ?_⟩
  · rw [step_eq_execute hb] at hstep
    rw [runs_of_finished hstep, s.pay_eq.2.2, h.runs]
  · rw [Ledger.bounces_enter]
    exact h.within

/-- Every run with a limit ends. -/
theorem ends (hpos : 1 ≤ limit) (h : s.Limited m budget limit first l) :
    ∃ q q' count, s.Leads first l q q' count ∧ Ending m budget limit first q q' count := by
  induction hf : fuel budget limit first l s.control using Nat.strong_induction_on
    generalizing s l with
  | _ f ih =>
  have hroom := h.room
  by_cases hb : s.mustBounce = true
  · obtain ⟨hg, -⟩ := (mustBounce_iff h.place).1 hb
    by_cases hlt : l.bounces first < limit
    · obtain ⟨hstep, h'⟩ := h.renew hb hlt
      have hless : fuel budget limit first (l.bounce first) s.renew.control < f := by
        have hslack : s.renew.control.slack ≤ 2 := Control.slack_le _
        simp only [fuel, Ledger.bounce, Function.update_self] at hf ⊢
        omega
      obtain ⟨q, q', count, hleads, hending⟩ := ih _ hless h' rfl
      exact ⟨q, q', count, hleads.bounce hstep, hending⟩
    · obtain ⟨st, hstep, herase, hbounces, hsteps, hpasses⟩ := h.cut hb (not_lt.1 hlt) hpos
      have hleads : s.Leads first l (.finished st _) (.running s.erase) ((limit + 1) * budget) :=
        ⟨1, 0, iterate_succ_finished hstep 0, rfl, List.forall_mem_nil _, hpasses⟩
      exact ⟨_, _, _, hleads, .cut hg herase hbounces hsteps⟩
  · rw [Bool.not_eq_true] at hb
    cases hstep : s.step with
    | running s' =>
      obtain ⟨h', hslack⟩ := h.proceed hb hstep
      have hless : fuel budget limit first (l.enter s.label) s'.control < f := by
        have hslack' := Control.slack_le s'.control
        simp only [fuel, passes_enter_label l h.run_eq, Ledger.bounces_enter] at hf ⊢
        cases hg : s.isGuarded with
        | true =>
          have hone : guards [s.label] = 1 := by simp [guards, label, hg]
          omega
        | false =>
          have hzero : guards [s.label] = 0 := by simp [guards, label, hg]
          have hlt := hslack hg
          omega
      obtain ⟨q, q', count, hleads, hending⟩ := ih _ hless h' rfl
      exact ⟨q, q', count, hleads.proceed hb h.run_eq hstep, hending⟩
    | finished st result => exact h.finish hb hstep

end Limited

/-- Whoever comes to a guard and goes on to the end passes that guard as well. -/
theorem guards_lt_of_finished {x : State} {j i : Nat} {st : Store} {result : Except Error Value}
    (hx : iterate execute j s = .running x) (hg : x.isGuarded = true)
    (h : iterate execute i s = .finished st result) :
    guards (plainTrace j s) < guards (plainTrace i s) := by
  obtain ⟨d, rfl⟩ := Nat.exists_eq_add_of_lt (lt_of_iterate_finished hx h)
  have htrace : plainTrace (j + (d + 1)) s = plainTrace j s ++ plainTrace (d + 1) x :=
    record_add hx (d + 1)
  have hfirst : 0 < guards (plainTrace (d + 1) x) := by
    have hone : guards [x.label] = 1 := by simp [guards, label, hg]
    unfold plainTrace
    cases hexec : x.execute with
    | running y =>
      rw [record_succ_running hexec, guards_append]
      omega
    | finished st' result' =>
      rw [record_succ_finished hexec]
      omega
  rw [Nat.add_assoc, htrace, guards_append]
  omega

/-- What a run without a limit comes to, if the evaluation without guards ends. -/
theorem Unlimited.same_end (hs : s.Unlimited Action.Primitive m)
    (hbooks : s.place.Booked m budget first .blank s.isGuarded) (hb : 1 ≤ budget)
    {st : Store} {result : Except Error Value} {j : Nat} (hst : st.Closed m budget first l)
    (hruns : st.runs = first + 1) (hj : iterate execute j s.erase = .finished st.erase result)
    (hpasses : passes (plainTrace j s.erase) first = l.passes first) :
    ∃ n₀ st₀, s.runWithin n₀ = some (st₀, result) ∧ s.trace n₀ = plainTrace j s.erase ∧
      st₀.erase = st.erase ∧ (st.machine m).steps = (st₀.machine m).steps ∧
      (st.machine m).bounces = (st₀.machine m).bounces := by
  have hc := Action.primitive_confined m
  obtain ⟨n₀, st₀, hn₀, herase, htrace⟩ := (hs.runWithin_iff hc).2 ⟨j, hj, rfl⟩
  obtain ⟨l₀, hl₀, hp⟩ := booked_iterate hc hs hbooks n₀
  rw [runWithin_eq_some_iff.1 hn₀] at hl₀
  have hruns₀ : st₀.runs = first + 1 := by
    show st₀.erase.runs = _
    rw [herase]
    exact hruns
  refine ⟨n₀, st₀, hn₀, htrace, herase, hst.counters_eq hl₀ hb hruns hruns₀ ?_⟩
  rw [hp, htrace, hpasses]
  exact (Nat.zero_add _).symm

/-- What a run without a limit comes to, where the evaluation without guards goes on. -/
theorem Unlimited.same_state (hs : s.Unlimited Action.Primitive m) {x : State} {j : Nat}
    (hj : iterate execute j s.erase = .running x) :
    ∃ n₀ s₀, iterate step n₀ s = .running s₀ ∧ s₀.erase = x ∧
      s.trace n₀ = plainTrace j s.erase := by
  obtain ⟨n₀, hn₀, htrace⟩ := iterate_execute_simulated (Action.primitive_confined m) hs j
  rw [hj] at hn₀
  cases hi : iterate step n₀ s with
  | finished st₀ result₀ =>
    rw [hi] at hn₀
    cases hn₀
  | running s₀ =>
    rw [hi] at hn₀
    cases hn₀
    exact ⟨n₀, s₀, hi, rfl, htrace⟩

end State

namespace Store

variable {st : Store}

theorem limited_start (hs : st.Only Action.Primitive) (hm : m < st.machines.size)
    (hcanceled : st.world.canceled = none) (hdepth : (st.machine m).depth = 0) (budget limit : Nat)
    (node : Node) (scope : ScopeId) :
    ((st.configure m budget limit).start m node scope).Limited m budget limit st.runs .blank := by
  refine ⟨calm_configure_start hs hm hcanceled budget limit node scope, rfl, rfl,
    booked_configure_start hm hdepth budget limit node scope, ?_, Nat.zero_le _⟩
  rw [settings_start, settings_configure hm]

/-- The bounce limit ends every run and changes nothing else. If the run without the limit ends
after no more guards than the limit allows for, the run with it is the same one. Otherwise it fails
there, and leaves the output and the scopes that the run without the limit has at that guard. -/
theorem runWithin_limited (hs : st.Only Action.Primitive) (hm : m < st.machines.size)
    (hcanceled : st.world.canceled = none) (hdepth : (st.machine m).depth = 0) (hb : 1 ≤ budget)
    (hpos : 1 ≤ limit) (node : Node) (scope : ScopeId) :
    let free := (st.configure m budget 0).start m node scope
    ∃ n st' result, (st.configure m budget limit).runWithin n m node scope = some (st', result) ∧
      (∀ n₀ st₀ result₀, free.runWithin n₀ = some (st₀, result₀) →
        guards (free.trace n₀) ≤ (limit + 1) * budget →
        result = result₀ ∧ st'.world.output = st₀.world.output ∧ st'.world.heap = st₀.world.heap ∧
          (st'.machine m).steps = (st₀.machine m).steps ∧
          (st'.machine m).bounces = (st₀.machine m).bounces) ∧
      ((∀ n₀ st₀ result₀, free.runWithin n₀ = some (st₀, result₀) →
          (limit + 1) * budget < guards (free.trace n₀)) →
        result = .error ((Fault.bounceLimit limit).error Pos.none) ∧
          (st'.machine m).bounces = limit + 1 ∧
          (st'.machine m).steps = (limit + 1) * (budget + 1) ∧
          ∃ n₀ s, State.iterate State.step n₀ free = .running s ∧ s.isGuarded = true ∧
            guards (free.trace n₀) = (limit + 1) * budget ∧
            st'.world.output = s.store.world.output ∧ st'.world.heap = s.store.world.heap) := by
  intro free
  have hc := Action.primitive_confined m
  have hfree : free.Unlimited Action.Primitive m := unlimited_start hs hm hcanceled hb node scope
  have hlimited := limited_start hs hm hcanceled hdepth budget limit node scope
  have hbooks : free.place.Booked m budget st.runs .blank free.isGuarded :=
    booked_configure_start hm hdepth budget 0 node scope
  obtain ⟨q, q', count, ⟨n, j, hn, hj, hx, hcount⟩, hending⟩ := hlimited.ends hpos
  have hsame : ((st.configure m budget limit).start m node scope).erase = free.erase :=
    (st.start_configure_erase m budget limit node scope).trans
      (st.start_configure_erase m budget 0 node scope).symm
  rw [hsame] at hj hx hcount
  have hblank : guards (State.plainTrace j free.erase) = count := (Nat.zero_add _).symm.trans hcount
  cases hending with
  | @freely st' result l closed runs within =>
    have hpasses := (passes_eq_guards hx).trans hblank
    obtain ⟨n₀, st₀, hn₀, htrace, herase, hcounters⟩ :=
      hfree.same_end hbooks hb closed runs hj hpasses
    have hworld : st'.world.output = st₀.world.output ∧ st'.world.heap = st₀.world.heap :=
      ⟨congrArg (·.world.output) herase.symm, congrArg (·.world.heap) herase.symm⟩
    refine ⟨n, st', result, State.runWithin_eq_some_iff.2 hn, ?_, fun hall => ?_⟩
    · intro n₁ st₁ result₁ hn₁ _
      obtain ⟨rfl, rfl⟩ := State.iterate_finished_unique (State.runWithin_eq_some_iff.1 hn₀)
        (State.runWithin_eq_some_iff.1 hn₁)
      exact ⟨rfl, hworld.1, hworld.2, hcounters⟩
    · have hlt := hall n₀ st₀ result hn₀
      have henough := closed.tallies.enough st.runs
      have hle : (l.bounces st.runs + 1) * budget ≤ (limit + 1) * budget :=
        Nat.mul_le_mul_right _ (Nat.succ_le_succ within)
      rw [htrace, hblank] at hlt
      omega
  | @cut st' x guarded store bounces steps =>
    refine ⟨n, st', _, State.runWithin_eq_some_iff.2 hn, ?_, fun _ => ⟨rfl, bounces, steps, ?_⟩⟩
    · intro n₀ st₀ result₀ hn₀ hle
      obtain ⟨i, hi, htrace⟩ := (hfree.runWithin_iff hc).1 ⟨n₀, st₀, hn₀, rfl, rfl⟩
      have hlt := State.guards_lt_of_finished hj guarded hi
      rw [htrace, hblank] at hlt
      omega
    · obtain ⟨n₀, s, hn₀, rfl, htrace⟩ := hfree.same_state hj
      refine ⟨n₀, s, hn₀, guarded, ?_, ?_, ?_⟩
      · rw [htrace]
        exact hblank
      · exact congrArg (·.world.output) store
      · exact congrArg (·.world.heap) store

/-- A function that calls itself for ever. -/
def callForever : Node :=
  .call Pos.none
    (.lambda Pos.none (some (bytes "f")) []
      (.call Pos.none (.identifier Pos.none (bytes "f")) []))
    []

/-- The limit ends a run that would never end. -/
theorem callForever_limited :
    ∃ n st result, ((ofBuiltins .silent []).configure 0 3 2).runWithin n 0 callForever 0 =
      some (st, result) ∧ (st.machine 0).bounces = 3 ∧ (st.machine 0).steps = 12 := by
  have honly : (ofBuiltins .silent []).Only Action.Primitive :=
    ofBuiltins_only ⟨trivial, trivial⟩ (by simp) fun _ h => h.elim
  have hbudget : 1 ≤ 3 := by decide
  have hlimit : 1 ≤ 2 := by decide
  obtain ⟨n, st, result, hn, -, -⟩ :=
    runWithin_limited honly (show 0 < 1 by decide) rfl rfl hbudget hlimit callForever 0
  have hend : (((ofBuiltins .silent []).configure 0 3 2).runWithin 60 0 callForever 0).any
      (fun x => (x.1.machine 0).bounces == 3 && (x.1.machine 0).steps == 12) = true := by
    decide +kernel
  obtain ⟨⟨st', result'⟩, h, hx⟩ := Option.any_eq_true _ _ |>.1 hend
  obtain ⟨rfl, rfl⟩ := State.iterate_finished_unique (State.runWithin_eq_some_iff.1 hn)
    (State.runWithin_eq_some_iff.1 h)
  rw [Bool.and_eq_true, beq_iff_eq, beq_iff_eq] at hx
  exact ⟨n, st, result, hn, hx⟩

end Store

end Mycel
