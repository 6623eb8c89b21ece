import Mathlib.Algebra.BigOperators.Intervals
import Mycel.Proofs.Machine.Budget

/-!
# Steps and bounces

A machine counts steps and bounces for all runs together, and each run has a budget of its own: a
run inside another one starts with a new budget, and the other one goes on with what it had left.
To say what the counters are in the end, a `Ledger` keeps apart what the runs have done, and
`Place.Booked` says how the machine and the budgets that are saved for the runs around the current
one agree with it.
-/

namespace Mycel

/-- The number of guards that the steps of a run have passed. -/
def passes (labels : List Label) (run : Nat) : Nat :=
  labels.countP fun l => l.guarded && l.run == run

/-- For each run, the guards that it has passed and those where it bounced. -/
structure Ledger where
  passes : Nat → Nat
  bounces : Nat → Nat

namespace Ledger

/-- One guard more that a run has passed. -/
def pass (l : Ledger) (i : Nat) : Ledger :=
  { l with passes := Function.update l.passes i (l.passes i + 1) }

/-- One bounce more of a run. -/
def bounce (l : Ledger) (i : Nat) : Ledger :=
  { l with bounces := Function.update l.bounces i (l.bounces i + 1) }

/-- Enters a step that was done. -/
def enter (l : Ledger) (label : Label) : Ledger := if label.guarded then l.pass label.run else l

theorem passes_enter (l : Ledger) (label : Label) (i : Nat) :
    (l.enter label).passes i = l.passes i + Mycel.passes [label] i := by
  unfold enter Mycel.passes
  by_cases hi : i = label.run
  · subst hi
    cases hg : label.guarded <;> simp [hg, pass]
  · have hne : (label.run == i) = false := by simpa using Ne.symm hi
    split_ifs <;> simp [pass, hi, hne]

theorem bounces_enter (l : Ledger) (label : Label) : (l.enter label).bounces = l.bounces := by
  unfold enter
  split_ifs <;> rfl

/-- What a run has left of its budget. -/
def left (l : Ledger) (budget i : Nat) : Int := ((l.bounces i + 1) * budget : Nat) - l.passes i

theorem left_pass_self (l : Ledger) (budget i : Nat) :
    (l.pass i).left budget i = l.left budget i - 1 := by
  simp only [left, pass, Function.update_self]
  omega

theorem left_pass_of_ne (l : Ledger) (budget : Nat) {i j : Nat} (h : j ≠ i) :
    (l.pass i).left budget j = l.left budget j := by
  simp only [left, pass, Function.update_of_ne h]

theorem left_bounce_self (l : Ledger) (budget i : Nat) :
    (l.bounce i).left budget i = l.left budget i + budget := by
  simp only [left, bounce, Function.update_self, Nat.add_mul]
  omega

theorem left_bounce_of_ne (l : Ledger) (budget : Nat) {i j : Nat} (h : j ≠ i) :
    (l.bounce i).left budget j = l.left budget j := by
  simp only [left, bounce, Function.update_of_ne h]

/-- A run and the runs around it: each has saved what the one around it has left. The outermost one
is run `first`. -/
def Saves (l : Ledger) (budget first : Nat) : Run → List Suspended → Prop
  | run, [] => run.id = first ∧ run.saved = none
  | run, s :: waiting =>
    s.run.id < run.id ∧ run.saved = some (l.left budget s.run.id) ∧
      l.Saves budget first s.run waiting

variable {l l' : Ledger} {budget first : Nat}

theorem Saves.first_le {run : Run} {waiting : List Suspended}
    (h : l.Saves budget first run waiting) : first ≤ run.id := by
  induction waiting generalizing run with
  | nil => exact h.1.ge
  | cons s waiting ih => exact (ih h.2.2).trans h.1.le

/-- What is entered for the current run is no concern of those around it. -/
theorem Saves.congr {run : Run} {waiting : List Suspended} (h : l.Saves budget first run waiting)
    (heq : ∀ i < run.id, l'.left budget i = l.left budget i) :
    l'.Saves budget first run waiting := by
  induction waiting generalizing run with
  | nil => exact h
  | cons s waiting ih =>
    obtain ⟨hlt, hsaved, hrest⟩ := h
    exact ⟨hlt, (heq _ hlt).symm ▸ hsaved, ih hrest fun i hi => heq i (hi.trans hlt)⟩

/-- A result that is kept for a run is no concern of its budget. -/
theorem Saves.keep {run run' : Run} {waiting : List Suspended}
    (h : l.Saves budget first run waiting) (hid : run'.id = run.id)
    (hsaved : run'.saved = run.saved) (id : Nat) (v : Value) :
    l.Saves budget first run' (waiting.map (·.keep id v)) := by
  induction waiting generalizing run run' with
  | nil => exact ⟨hid.trans h.1, hsaved.trans h.2⟩
  | cons s waiting ih =>
    have hs : (s.keep id v).run.id = s.run.id ∧ (s.keep id v).run.saved = s.run.saved := by
      unfold Suspended.keep
      split_ifs <;> exact ⟨rfl, rfl⟩
    refine ⟨?_, ?_, ih h.2.2 hs.1 hs.2⟩
    · rw [hs.1, hid]
      exact h.1
    · rw [hs.1, hsaved]
      exact h.2.1

/-- A machine has counted what the ledger says for the runs from `first` on, before run `next`. -/
structure Tallies (l : Ledger) (budget first next : Nat) (machine : Machine) : Prop where
  settings : machine.settings.stackBudget = budget
  fresh : ∀ i, next ≤ i → l.passes i = 0 ∧ l.bounces i = 0
  enough : ∀ i, l.passes i ≤ (l.bounces i + 1) * budget
  bounces : machine.bounces = ∑ i ∈ Finset.Ico first next, l.bounces i
  steps : machine.steps = ∑ i ∈ Finset.Ico first next, l.passes i + machine.bounces

theorem sum_update_succ {s : Finset Nat} {i : Nat} (hi : i ∈ s) (f : Nat → Nat) :
    ∑ j ∈ s, Function.update f i (f i + 1) j = ∑ j ∈ s, f j + 1 := by
  rw [Finset.sum_update_of_mem hi, Finset.sum_eq_add_sum_sdiff_singleton_of_mem hi f]
  omega

variable {next i : Nat} {machine machine' : Machine}

theorem Tallies.pass (h : l.Tallies budget first next machine) (hi : i ∈ Finset.Ico first next)
    (hlt : l.passes i < (l.bounces i + 1) * budget) (hset : machine'.settings = machine.settings)
    (hbounces : machine'.bounces = machine.bounces) (hsteps : machine'.steps = machine.steps + 1) :
    (l.pass i).Tallies budget first next machine' := by
  refine ⟨hset ▸ h.settings, fun j hj => ?_, fun j => ?_, hbounces.trans h.bounces, ?_⟩
  · have hne : j ≠ i := fun he => absurd (Finset.mem_Ico.1 hi).2 (he ▸ hj).not_gt
    simpa [Ledger.pass, hne] using h.fresh j hj
  · by_cases he : j = i
    · subst he
      simpa [Ledger.pass] using hlt
    · simpa [Ledger.pass, he] using h.enough j
  · show _ = ∑ j ∈ _, Function.update l.passes i (l.passes i + 1) j + _
    rw [sum_update_succ hi, hsteps, hbounces, h.steps]
    omega

theorem Tallies.bounce (h : l.Tallies budget first next machine) (hi : i ∈ Finset.Ico first next)
    (hset : machine'.settings = machine.settings)
    (hbounces : machine'.bounces = machine.bounces + 1)
    (hsteps : machine'.steps = machine.steps + 1) :
    (l.bounce i).Tallies budget first next machine' := by
  refine ⟨hset ▸ h.settings, fun j hj => ?_, fun j => ?_, ?_, ?_⟩
  · have hne : j ≠ i := fun he => absurd (Finset.mem_Ico.1 hi).2 (he ▸ hj).not_gt
    simpa [Ledger.bounce, hne] using h.fresh j hj
  · by_cases he : j = i
    · subst he
      have hj := h.enough j
      simp only [Ledger.bounce, Function.update_self, Nat.add_mul] at hj ⊢
      omega
    · simpa [Ledger.bounce, he] using h.enough j
  · show _ = ∑ j ∈ _, Function.update l.bounces i (l.bounces i + 1) j
    rw [sum_update_succ hi, hbounces, h.bounces]
  · show _ = ∑ j ∈ _, l.passes j + _
    rw [hsteps, hbounces, h.steps]
    omega

/-- The next run begins with nothing. -/
theorem Tallies.begin (h : l.Tallies budget first next machine) (hle : first ≤ next)
    (hset : machine'.settings = machine.settings) (hbounces : machine'.bounces = machine.bounces)
    (hsteps : machine'.steps = machine.steps) :
    l.Tallies budget first (next + 1) machine' := by
  obtain ⟨hp, hb⟩ := h.fresh next le_rfl
  refine ⟨hset ▸ h.settings, fun j hj => h.fresh j (by omega), h.enough, ?_, ?_⟩
  · rw [Finset.sum_Ico_succ_top hle, hb, hbounces, h.bounces]
    rfl
  · rw [Finset.sum_Ico_succ_top hle, hp, hsteps, hbounces, h.steps]
    rfl

end Ledger

/-! ## Machines that agree with a ledger -/

/-- The counters of the machine and the budgets of the runs agree with the ledger. A run that has
just started or bounced is `pending`: it has its whole budget and has to pass a guard next. -/
structure Place.Booked (m budget first : Nat) (l : Ledger) (pending : Bool) (x : Place) : Prop where
  tallies : l.Tallies budget first x.store.runs (x.store.machine m)
  depth : (x.store.machine m).depth = x.waiting.length + 1
  current : (x.store.machine m).budget = l.left budget x.run.id
  saves : l.Saves budget first x.run x.waiting
  recent : x.run.id < x.store.runs
  needed : ∀ i ∈ Finset.Ico first x.store.runs,
    l.bounces i * budget < l.passes i ∨
      pending = true ∧ i = x.run.id ∧ l.passes i = l.bounces i * budget

/-- The machine has counted what the ledger says, and no run is under way. -/
structure Store.Closed (m budget first : Nat) (l : Ledger) (st : Store) : Prop where
  tallies : l.Tallies budget first st.runs (st.machine m)
  started : first < st.runs
  needed : ∀ i ∈ Finset.Ico first st.runs, l.bounces i * budget < l.passes i

variable {p : Action → Prop} {m budget first : Nat} {l : Ledger}

theorem Ledger.Tallies.endRun {st : Store} {run : Run}
    (h : l.Tallies budget first st.runs (st.machine m)) (hm : m < st.machines.size)
    (hrun : run.machine = m) (failure : Option Error) :
    l.Tallies budget first (st.endRun run failure).runs ((st.endRun run failure).machine m) := by
  rw [st.runs_endRun, Store.machine_endRun hm hrun]
  exact ⟨h.settings, h.fresh, h.enough, h.bounces, h.steps⟩

namespace Place

variable {x y : Place} {pending : Bool}

theorem Booked.mem (h : x.Booked m budget first l pending) :
    x.run.id ∈ Finset.Ico first x.store.runs :=
  Finset.mem_Ico.2 ⟨h.saves.first_le, h.recent⟩

theorem Booked.settled (h : x.Booked m budget first l false) :
    ∀ i ∈ Finset.Ico first x.store.runs, l.bounces i * budget < l.passes i :=
  fun i hi => (h.needed i hi).resolve_right fun hp => Bool.false_ne_true hp.1

/-- Where no run is pending, the next step may be of any kind. -/
theorem Booked.any (h : x.Booked m budget first l false) (pending : Bool) :
    x.Booked m budget first l pending :=
  { h with needed := fun i hi => .inl (h.settled i hi) }

/-- Only the machine and the runs matter. -/
theorem Booked.congr (h : x.Booked m budget first l pending)
    (hm : y.store.machine m = x.store.machine m) (hr : y.store.runs = x.store.runs)
    (hrun : y.run = x.run) (hw : y.waiting = x.waiting) : y.Booked m budget first l pending := by
  refine ⟨?_, ?_, ?_, ?_, ?_, ?_⟩
  · rw [hm, hr]
    exact h.tallies
  · rw [hm, hw]
    exact h.depth
  · rw [hm, hrun]
    exact h.current
  · rw [hrun, hw]
    exact h.saves
  · rw [hrun, hr]
    exact h.recent
  · rw [hrun, hr]
    exact h.needed

theorem Booked.keep {st : Store} {machine : Nat} {run : Run} {waiting : List Suspended}
    (h : Booked m budget first l false ⟨st, machine, run, waiting⟩) (id : Nat) (v : Value) :
    Booked m budget first l false ⟨st, machine, run, waiting.map (·.keep id v)⟩ := by
  refine { h with depth := ?_, saves := h.saves.keep rfl rfl id v }
  rw [List.length_map]
  exact h.depth

theorem Booked.pop {st : Store} {machine : Nat} {run : Run} {s : Suspended}
    {waiting : List Suspended} (h : Booked m budget first l false ⟨st, machine, run, s :: waiting⟩)
    (hm : m < st.machines.size) (hrun : run.machine = m) (failure : Option Error) :
    Booked m budget first l false ⟨st.endRun run failure, run.machine, s.run, waiting⟩ := by
  obtain ⟨hlt, hsaved, hsaves⟩ := h.saves
  refine ⟨h.tallies.endRun hm hrun failure, ?_, ?_, hsaves, ?_, fun i hi => .inl ?_⟩
  · rw [Store.machine_endRun hm hrun]
    exact Nat.sub_eq_of_eq_add h.depth
  · rw [Store.machine_endRun hm hrun, hsaved]
    rfl
  · rw [st.runs_endRun]
    exact hlt.trans h.recent
  · rw [st.runs_endRun] at hi
    exact h.settled i hi

/-- A run that begins inside another one has a budget of its own. -/
theorem Booked.begin {st : Store} {machine : Nat} {run : Run} {waiting : List Suspended}
    (h : Booked m budget first l false ⟨st, machine, run, waiting⟩) (hm : m < st.machines.size)
    (resumption : Resumption) :
    Booked m budget first l true
      ⟨(st.beginRun m).1, m, (st.beginRun m).2, ⟨run, resumption⟩ :: waiting⟩ := by
  have hmachine := Store.machine_beginRun hm
  have hdepth : (st.machine m).depth > 0 := by
    have hd := h.depth
    simp only at hd
    omega
  rw [if_pos hdepth, if_pos hdepth, if_pos hdepth] at hmachine
  obtain ⟨hp, hb⟩ := h.tallies.fresh st.runs le_rfl
  refine ⟨?_, ?_, ?_, ⟨h.recent, ?_, h.saves⟩, Nat.lt_succ_self _, fun i hi => ?_⟩
  · refine h.tallies.begin (h.saves.first_le.trans h.recent.le) ?_ ?_ ?_
    · rw [hmachine]
    · rw [hmachine]
    · rw [hmachine]
  · rw [hmachine]
    exact congrArg (· + 1) h.depth
  · rw [hmachine]
    refine h.tallies.settings.trans ?_
    show (budget : Int) = l.left budget st.runs
    simp [Ledger.left, hp, hb]
  · show (if (st.machine m).depth > 0 then some (st.machine m).budget else none) = _
    rw [if_pos hdepth]
    exact congrArg some h.current
  · obtain ⟨hfirst, hlt⟩ : first ≤ i ∧ i < st.runs + 1 := Finset.mem_Ico.1 hi
    rcases Nat.lt_succ_iff_lt_or_eq.1 hlt with hlt | rfl
    · exact .inl (h.settled i (Finset.mem_Ico.2 ⟨hfirst, hlt⟩))
    · exact .inr ⟨rfl, rfl, by simp [hp, hb]⟩

/-- The ends of runs leave the books in order. -/
theorem Unwinds.booked (h : x.Unwinds y) (hx : x.On m) (hb : x.Booked m budget first l false) :
    y.Booked m budget first l false := by
  induction h with
  | refl => exact hb
  | keep id v _ ih => exact ih ((Unwinds.keep id v (.refl _)).on hx) (hb.keep id v)
  | pop failure _ ih =>
    exact ih ((Unwinds.pop failure (.refl _)).on hx) (hb.pop hx.bound hx.run failure)

theorem Booked.closed (h : x.Booked m budget first l false) (hx : x.On m)
    (failure : Option Error) : (x.store.endRun x.run failure).Closed m budget first l := by
  refine ⟨h.tallies.endRun hx.bound hx.run failure, ?_, ?_⟩
  · rw [Store.runs_endRun]
    exact h.saves.first_le.trans_lt h.recent
  · rw [Store.runs_endRun]
    exact h.settled

end Place

/-! ## Steps -/

namespace State

variable {s s' : State} {pending : Bool}

theorem booked_charge (hs : s.place.On m) (h : s.place.Booked m budget first l pending)
    (hpos : 0 < (s.store.machine m).budget) :
    s.charge.place.Booked m budget first (l.pass s.run.id) false := by
  have hleft : (s.store.machine m).budget = l.left budget s.run.id := h.current
  have hmachine : s.charge.place.store.machine m = _ := machine_charge hs
  refine ⟨?_, ?_, ?_, ?_, h.recent, fun i hi => .inl ?_⟩
  · refine h.tallies.pass h.mem ?_ ?_ ?_ ?_
    · unfold Ledger.left at hleft
      show l.passes s.run.id < (l.bounces s.run.id + 1) * budget
      omega
    · rw [hmachine]
      rfl
    · rw [hmachine]
      rfl
    · rw [hmachine]
      rfl
  · rw [hmachine]
    exact h.depth
  · rw [hmachine]
    refine Eq.trans ?_ (l.left_pass_self budget s.run.id).symm
    rw [← hleft]
  · exact h.saves.congr fun i hi => l.left_pass_of_ne budget hi.ne
  · by_cases he : i = s.run.id
    · subst he
      show l.bounces s.run.id * budget <
        Function.update l.passes s.run.id (l.passes s.run.id + 1) s.run.id
      rw [Function.update_self]
      rcases h.needed _ hi with hlt | ⟨-, -, heq⟩
      · omega
      · omega
    · show l.bounces i * budget < Function.update l.passes s.run.id (l.passes s.run.id + 1) i
      rw [Function.update_of_ne he]
      exact (h.needed i hi).resolve_right fun hp => he hp.2.1

theorem booked_renew (hs : s.place.On m) (h : s.place.Booked m budget first l pending)
    (hzero : (s.store.machine m).budget ≤ 0) :
    s.renew.place.Booked m budget first (l.bounce s.run.id) true := by
  have hleft : (s.store.machine m).budget = l.left budget s.run.id := h.current
  have hmachine : s.renew.place.store.machine m = _ := machine_renew hs
  -- The budget is used up exactly: a run never passes more guards than it is allowed.
  have hpasses : l.passes s.run.id = (l.bounces s.run.id + 1) * budget := by
    have hle := h.tallies.enough s.run.id
    unfold Ledger.left at hleft
    omega
  refine ⟨?_, ?_, ?_, ?_, h.recent, fun i hi => ?_⟩
  · refine h.tallies.bounce h.mem ?_ ?_ ?_
    · rw [hmachine]
      rfl
    · rw [hmachine]
      rfl
    · rw [hmachine]
      rfl
  · rw [hmachine]
    exact h.depth
  · rw [hmachine]
    refine Eq.trans ?_ (l.left_bounce_self budget s.run.id).symm
    rw [Ledger.left, hpasses, Int.sub_self, Int.zero_add]
    exact h.tallies.settings
  · exact h.saves.congr fun i hi => l.left_bounce_of_ne budget hi.ne
  · by_cases he : i = s.run.id
    · subst he
      refine .inr ⟨rfl, rfl, ?_⟩
      show l.passes s.run.id =
        Function.update l.bounces s.run.id (l.bounces s.run.id + 1) s.run.id * budget
      rw [Function.update_self, hpasses]
    · refine .inl ?_
      show Function.update l.bounces s.run.id (l.bounces s.run.id + 1) i * budget < l.passes i
      rw [Function.update_of_ne he]
      exact (h.needed i hi).resolve_right fun hp => he hp.2.1

end State

/-- The books are in order whatever becomes of a state. -/
def Progress.Booked (m budget first : Nat) (l : Ledger) : Progress → Prop
  | .running s => s.place.Booked m budget first l s.isGuarded
  | .finished st _ => st.Closed m budget first l

namespace State

variable {s s' : State}

theorem booked_execute (hc : Confined p m) (hs : s.Calm p m)
    (h : s.place.Booked m budget first l false) : s.execute.Booked m budget first l := by
  have hmach : s.machine = m := hs.place.machine
  have hon := on_execute hc hs
  have hm : (s.control.execute s.store s.machine).store.machine m = s.store.machine m := by
    simp only [Store.machine, Control.execute_machines]
  have hr := s.control.execute_runs s.store s.machine
  have hx : Place.Booked m budget first l false ⟨(s.control.execute s.store s.machine).store,
      (s.control.execute s.store s.machine).machine s.machine, s.run, s.waiting⟩ :=
    h.congr hm hr rfl rfl
  rcases s.execute_cases with ⟨st, node, scope, resumption, -, -, heff, he⟩ | hreaches
  · rw [heff] at hon hx
    rw [he, hmach]
    exact hx.begin hon.bound resumption
  · cases hex : s.execute with
    | running s' =>
      rw [hex] at hreaches
      exact (Place.Unwinds.booked hreaches hon hx).any _
    | finished st result =>
      rw [hex] at hreaches
      obtain ⟨y, failure, hy, hw, rfl⟩ := hreaches
      exact (Place.Unwinds.booked hy hon hx).closed (hy.on hon) failure

/-- What a step is charged is entered for its run. -/
theorem booked_pay (hs : s.place.On m) (h : s.place.Booked m budget first l s.isGuarded)
    (hb : s.mustBounce = false) :
    s.pay.place.Booked m budget first (l.enter s.label) false := by
  cases hg : s.isGuarded with
  | true =>
    have hpos : 0 < (s.store.machine m).budget := by
      by_contra hle
      exact Bool.false_ne_true (hb.symm.trans ((mustBounce_iff hs).2 ⟨hg, by omega⟩))
    have hcharge := booked_charge hs h hpos
    simpa [pay, Ledger.enter, label, hg] using hcharge
  | false =>
    rw [hg] at h
    simpa [pay, Ledger.enter, label, hg] using h

/-- A step that does not bounce is entered for its run. -/
theorem booked_proceed (hc : Confined p m) (hs : s.Calm p m)
    (h : s.place.Booked m budget first l s.isGuarded) (hb : s.mustBounce = false) :
    s.step.Booked m budget first (l.enter s.label) := by
  rw [step_eq_execute hb]
  exact booked_execute hc (calm_pay hs) (booked_pay hs.place h hb)

theorem passes_append (xs ys : List Label) (i : Nat) :
    passes (xs ++ ys) i = passes xs i + passes ys i :=
  List.countP_append

/-- The books are in order all along a run, and when it has ended. -/
theorem booked_iterate (hc : Confined p m) (hs : s.Unlimited p m)
    (h : s.place.Booked m budget first l s.isGuarded) (n : Nat) :
    ∃ l', (iterate step n s).Booked m budget first l' ∧
      ∀ i, l'.passes i = l.passes i + passes (trace n s) i := by
  induction n generalizing s l with
  | zero => exact ⟨l, h, fun i => rfl⟩
  | succ n ih =>
    by_cases hb : s.mustBounce = true
    · obtain ⟨hstep, hs', -⟩ := unlimited_bounce hs hb
      obtain ⟨hg, hzero⟩ := (mustBounce_iff hs.place).1 hb
      have hg' : s.renew.isGuarded = true := hg
      have h' := booked_renew hs.place h hzero
      rw [← hg'] at h'
      obtain ⟨l', hl', hp⟩ := ih hs' h'
      obtain ⟨hi, ht⟩ := iterate_succ_bounce hs hb n
      rw [hi, ht]
      exact ⟨l', hl', hp⟩
    · rw [Bool.not_eq_true] at hb
      have h' := booked_proceed hc hs.toCalm h hb
      unfold trace
      cases hstep : s.step with
      | running s' =>
        rw [hstep] at h'
        obtain ⟨l', hl', hp⟩ := ih (unlimited_step hc hs hstep) h'
        rw [iterate_succ_running hstep, record_succ_running hstep, if_neg (by simp [hb])]
        refine ⟨l', hl', fun i => ?_⟩
        rw [hp, Ledger.passes_enter, passes_append, Nat.add_assoc]
        rfl
      | finished st result =>
        rw [hstep] at h'
        rw [iterate_succ_finished hstep, record_succ_finished hstep, if_neg (by simp [hb])]
        exact ⟨_, h', fun i => Ledger.passes_enter l s.label i⟩

end State

/-- The ledger of a machine that has done nothing. -/
def Ledger.blank : Ledger := ⟨fun _ => 0, fun _ => 0⟩

namespace Store

variable {st : Store}

theorem booked_start (hm : m < st.machines.size) (hdepth : (st.machine m).depth = 0)
    (hbudget : (st.machine m).settings.stackBudget = budget) (node : Node) (scope : ScopeId) :
    (st.start m node scope).place.Booked m budget st.runs Ledger.blank true := by
  have hmachine : (st.start m node scope).place.store.machine m = _ := machine_beginRun hm
  have hzero : ¬ (st.machine m).depth > 0 := by omega
  rw [if_neg hzero, if_neg hzero, if_neg hzero] at hmachine
  have hruns : (st.start m node scope).place.store.runs = st.runs + 1 := rfl
  refine ⟨⟨?_, fun _ _ => ⟨rfl, rfl⟩, fun _ => Nat.zero_le _, ?_, ?_⟩, ?_, ?_, ⟨rfl, ?_⟩, ?_, ?_⟩
  · rw [hmachine]
    exact hbudget
  · rw [hmachine]
    simp [Ledger.blank]
  · rw [hmachine]
    simp [Ledger.blank]
  · rw [hmachine, hdepth]
    rfl
  · rw [hmachine]
    refine hbudget.trans ?_
    simp [Ledger.left, Ledger.blank]
  · exact if_neg hzero
  · exact Nat.lt_succ_self _
  · intro i hi
    rw [hruns, Nat.Ico_succ_singleton, Finset.mem_singleton] at hi
    exact .inr ⟨rfl, hi, by simp [Ledger.blank]⟩

theorem booked_configure_start (hm : m < st.machines.size) (hdepth : (st.machine m).depth = 0)
    (budget limit : Nat) (node : Node) (scope : ScopeId) :
    ((st.configure m budget limit).start m node scope).place.Booked m budget st.runs Ledger.blank
      true := by
  have hsize : m < (st.configure m budget limit).machines.size := by
    rw [configure, size_modifyMachine]
    exact hm
  have hmachine : ((st.configure m budget limit).machine m).depth = 0 := by
    rw [configure, machine_modifyMachine hm]
    exact hdepth
  refine booked_start hsize hmachine ?_ node scope
  rw [settings_configure hm]

theorem Closed.bounces_eq (h : st.Closed m budget first l) (hb : 1 ≤ budget) :
    (st.machine m).bounces = ∑ i ∈ Finset.Ico first st.runs, (l.passes i - 1) / budget := by
  rw [h.tallies.bounces]
  refine Finset.sum_congr rfl fun i hi => ?_
  have hlt := h.needed i hi
  have hle := h.tallies.enough i
  symm
  rw [Nat.div_eq_iff (by omega)]
  rw [Nat.add_mul] at hle
  omega

/-- The steps and bounces of a machine when an outermost run has ended. Run `i` of it has passed
`passes _ i` guards, a number that has nothing to do with the budget, and has bounced after as many
of them as the budget allows, unless it ended there. -/
theorem runWithin_counters (hs : st.Only (Action.Tame m)) (hm : m < st.machines.size)
    (hcanceled : st.world.canceled = none) (hdepth : (st.machine m).depth = 0) (hb : 1 ≤ budget)
    {node : Node} {scope : ScopeId} {n : Nat} {st' : Store} {result : Except Error Value}
    (h : (st.configure m budget 0).runWithin n m node scope = some (st', result)) :
    let guards := passes (((st.configure m budget 0).start m node scope).trace n)
    (st.runs < st'.runs ∧ ∀ i ∈ Finset.Ico st.runs st'.runs, 1 ≤ guards i) ∧
    (st'.machine m).bounces = ∑ i ∈ Finset.Ico st.runs st'.runs, (guards i - 1) / budget ∧
    (st'.machine m).steps = ∑ i ∈ Finset.Ico st.runs st'.runs, guards i + (st'.machine m).bounces ∧
    ∀ other, 1 ≤ other → ∃ n' st'',
      (st.configure m other 0).runWithin n' m node scope = some (st'', result) ∧
        st''.runs = st'.runs ∧
        ∀ i, passes (((st.configure m other 0).start m node scope).trace n') i = guards i := by
  have hc := Action.tame_confined m
  have hu := unlimited_start hs hm hcanceled hb node scope
  have hbook := booked_configure_start hm hdepth budget 0 node scope
  obtain ⟨l, hl, hp⟩ := State.booked_iterate hc hu hbook n
  rw [State.runWithin_eq_some_iff.1 h] at hl
  have hguards : passes (((st.configure m budget 0).start m node scope).trace n) = l.passes := by
    funext i
    rw [hp i]
    exact (Nat.zero_add _).symm
  intro guards
  rw [show guards = l.passes from hguards]
  refine ⟨⟨hl.started, fun i hi => ?_⟩, hl.bounces_eq hb, hl.tallies.steps, fun other ho => ?_⟩
  · exact Nat.one_le_of_lt (hl.needed i hi)
  · obtain ⟨j, hj, ht⟩ := (hu.runWithin_iff hc).1 ⟨n, st', h, rfl, rfl⟩
    have ho := unlimited_start hs hm hcanceled ho node scope
    obtain ⟨n', st'', hn, herase, htrace⟩ := (ho.runWithin_iff hc).2 ⟨j, hj, rfl⟩
    refine ⟨n', st'', hn, ?_, fun i => ?_⟩
    · show st''.erase.runs = st'.erase.runs
      rw [herase]
    · rw [htrace, ← hguards, ← ht]
      rfl

/-- A global scope with a builtin that starts runs. -/
def nestingStore : Store := ofBuiltins .silent [("inner", .inner false)]

/-- Runs a program of one literal inside the current run. -/
def runTrue : Node :=
  .call Pos.none (.identifier Pos.none (bytes "inner")) [.string Pos.none (bytes "true")]

theorem nestingStore_only : nestingStore.Only (Action.Tame 0) :=
  ofBuiltins_only ⟨trivial, trivial⟩ (by simp [Action.Only, Action.Tame]) fun _ _ _ _ he _ =>
    ⟨he.2, trivial⟩

/-- A run and the run inside it, with a budget of two steps. -/
theorem runTrue_counters :
    ∃ n st result, (nestingStore.configure 0 2 0).runWithin n 0 runTrue 0 = some (st, result) ∧
      st.runs = 2 ∧ (st.machine 0).bounces = 5 ∧
      (st.machine 0).bounces = ∑ i ∈ Finset.Ico 0 st.runs,
        (passes (((nestingStore.configure 0 2 0).start 0 runTrue 0).trace n) i - 1) / 2 := by
  have hend : ((nestingStore.configure 0 2 0).runWithin 60 0 runTrue 0).any
      (fun x => x.1.runs == 2 && (x.1.machine 0).bounces == 5) = true := by
    decide +kernel
  obtain ⟨⟨st, result⟩, h, hx⟩ := Option.any_eq_true _ _ |>.1 hend
  rw [Bool.and_eq_true, beq_iff_eq, beq_iff_eq] at hx
  refine ⟨60, st, result, h, hx.1, hx.2, ?_⟩
  exact (runWithin_counters nestingStore_only (by decide) rfl rfl (by decide) h).2.1

end Store

end Mycel
