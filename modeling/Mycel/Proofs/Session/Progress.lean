import Mycel.Proofs.Machine.BounceLimit
import Mycel.Proofs.Machine.Endings
import Mycel.Proofs.Machine.Reuse
import Mycel.Proofs.Session.Addressing

/-!
# Progress with every bounce

A bounce gives the machine of the run a new budget, and the step that bounced is tried again. If the
step is charged to that machine, it is now let through. But a continuation is charged to the machine
that made it, and in a session an evaluation can resume one that an earlier evaluation has left
behind. The earlier machine gets no new budget, so once it has none left, the step bounces again
and again.

An evaluation makes progress with every bounce (`State.Progresses`) just if all its bounces find the
machine of the run at work (`Session.progresses_iff`). Every evaluation leaves a session of which
this is true again (`Session.Capturing.eval`), so it holds of all evaluations of a session.
-/

namespace Mycel

/-- The builtins that write, and those that capture continuations and resume them. -/
def Action.Capturing : Action → Prop
  | .print | .println | .callcc | .escape _ _ => True
  | _ => False

theorem Action.capturing_provides (m : Nat) : Provides Action.Capturing m where
  callcc _ _ := trivial
  host _ h := h.elim
  inner _ h := h.elim
  hosted h := h.elim

/-! ## Steps without a guard -/

/-- How many steps there are, at most, before the next guard. A builtin that captures a continuation
may be applied to itself. -/
def Control.distance : Control → Nat
  | .perform .callcc (.builtin _ _ .callcc :: _) _ => 4
  | .perform .callcc _ _ => 3
  | .perform _ _ _ => 2
  | .resume (.final _) _ => 1
  | _ => 0

theorem Control.distance_resume_le (k : Continuation) (v : Value) :
    (resume k v).distance ≤ 1 := by
  cases k <;> simp [distance]

/-- An effect that starts no run, and after a step without a guard is nearer to one. -/
def Effect.Approaches (c : Control) : Effect → Prop
  | .advance _ _ c' => c.target? = none → c'.distance < c.distance
  | .nest _ _ _ _ => False
  | _ => True

theorem Effect.approaches_advance {st : Store} {m : Nat} {c c' : Control}
    (h : c.target?.isSome = true) : (Effect.advance st m c').Approaches c := by
  intro hnone
  rw [hnone] at h
  cases h

namespace Store

variable {m : Nat} (st : Store)

theorem approaches_evaluate (scope : ScopeId) (k : Continuation) (node : Node) :
    (st.evaluate m scope k node).Approaches (.evaluate node scope k) := by
  have hnears := st.nears_evaluate (m := m) scope k node
  generalize st.evaluate m scope k node = e at hnears ⊢
  cases e with
  | advance st' m' c' => exact Effect.approaches_advance rfl
  | nest => exact hnears
  | _ => trivial

theorem approaches_resume (v : Value) {k : Continuation} (hk : k.Only Action.Capturing) :
    (st.resume m v k).Approaches (.resume k v) := by
  cases k with
  | final run => trivial
  | assign pos name scope k =>
    simp only [resume]
    split
    · exact Effect.approaches_advance rfl
    · trivial
  | right pos o left k =>
    simp only [resume]
    split
    · exact Effect.approaches_advance rfl
    · trivial
  | branch whenTrue whenFalse scope k =>
    simp only [resume]
    split_ifs <;> exact Effect.approaches_advance rfl
  | again f k =>
    simp only [resume, apply]
    split
    · exact Effect.approaches_advance rfl
    · trivial
  | hosted number => exact hk.elim
  | _ => exact Effect.approaches_advance rfl

theorem approaches_writeFor (primitive : String) (t : Text) (k : Continuation) {c : Control}
    (hc : c.distance = 2) : (st.writeFor m primitive t k).Approaches c := by
  unfold writeFor
  split
  · intro _
    rw [hc]
    exact Nat.lt_succ_of_le (Control.distance_resume_le k _)
  · trivial

/-- What captures a continuation is followed by a guard, or by a builtin that is nearer to one. -/
theorem approaches_callcc (args : List Value) (k : Continuation) :
    (st.perform m args k .callcc).Approaches (.perform .callcc args k) := by
  simp only [perform, apply]
  split
  · rename_i control hcall
    intro _
    cases args with
    | nil => cases hcall
    | cons f rest =>
      cases f with
      | closure c =>
        cases hcall
        simp [Control.distance]
      | builtin id name action =>
        cases hcall
        cases action <;> simp [Control.distance]
      | _ => cases hcall
  · trivial

theorem approaches_perform (args : List Value) (k : Continuation) {action : Action}
    (h : action.Only Action.Capturing) :
    (st.perform m args k action).Approaches (.perform action args k) := by
  cases action with
  | print | println => exact st.approaches_writeFor _ _ k rfl
  | callcc => exact st.approaches_callcc args k
  | escape machine k' => exact fun _ => Nat.lt_succ_of_le (Control.distance_resume_le k' _)
  | _ => exact h.elim

end Store

theorem Control.approaches_execute {m : Nat} (st : Store) {c : Control}
    (h : c.Only Action.Capturing) : (c.execute st m).Approaches c := by
  cases c with
  | evaluate node scope k => exact st.approaches_evaluate scope k node
  | sequence rest scope last k => cases rest <;> exact Effect.approaches_advance rfl
  | arguments pos rest scope callee buffer filled k =>
    cases rest with
    | nil =>
      simp only [Control.execute]
      split
      · exact Effect.approaches_advance rfl
      · trivial
    | cons node rest => exact Effect.approaches_advance rfl
  | bindings rest body scope k =>
    cases rest with
    | nil => exact Effect.approaches_advance rfl
    | cons b rest =>
      simp only [Control.execute]
      split_ifs <;> exact Effect.approaches_advance rfl
  | enter closure args k => exact Effect.approaches_advance rfl
  | resume k v => exact st.approaches_resume v h.1
  | perform action args k => exact st.approaches_perform args k h.1
  | report number result => exact h.1.elim

/-- Nothing tells the evaluation to stop. -/
theorem Control.canceled_execute {m : Nat} (st : Store) {c : Control}
    (h : c.Only Action.Capturing) :
    (c.execute st m).store.world.canceled = st.world.canceled := by
  by_cases hescape : ∃ machine k args k', c = .perform (.escape machine k) args k'
  · obtain ⟨machine, k, args, k', rfl⟩ := hescape
    rfl
  · have hstays : (c.execute st m).Stays m st := by
      refine Control.stays_execute_of ?_ ?_ ?_
      · rintro number v rfl
        exact h.1.elim
      · rintro action args k rfl
        cases action with
        | print | println => exact Store.stays_writeFor _ _ k
        | callcc => exact Store.stays_apply _ _ _ _
        | escape machine k' => exact absurd ⟨machine, k', args, k, rfl⟩ hescape
        | _ => exact h.1.elim
      · rintro number result rfl
        exact h.1.elim
    exact hstays.2

/-- Why the evaluation has to stop, if it has to, in a state or in what a run has left. -/
def Progress.canceled : Progress → Option Text
  | .running s => s.store.world.canceled
  | .finished st _ => st.world.canceled

namespace Place

variable {x y : Place}

theorem Unwinds.canceled (h : x.Unwinds y) : y.store.world.canceled = x.store.world.canceled := by
  induction h with
  | refl => rfl
  | keep id v _ ih => exact ih
  | pop failure _ ih => exact ih.trans (Store.canceled_endRun _ _ failure)

theorem Reaches.canceled {q : Progress} (h : x.Reaches q) :
    q.canceled = x.store.world.canceled := by
  cases q with
  | running s => exact Unwinds.canceled h
  | finished st result =>
    obtain ⟨y, failure, hy, -, rfl⟩ := h
    exact (Store.canceled_endRun _ _ failure).trans hy.canceled

end Place

namespace State

variable {s : State}

theorem canceled_execute (hs : s.Only Action.Capturing) :
    s.execute.canceled = s.store.world.canceled := by
  rcases s.execute_cases with ⟨st, node, scope, resumption, -, -, hnest, -⟩ | hreaches
  · have hnear := Control.approaches_execute (m := s.machine) s.store hs.control
    rw [hnest] at hnear
    exact hnear.elim
  · exact hreaches.canceled.trans (Control.canceled_execute s.store hs.control)

theorem canceled_bounce (s : State) (target : Target) :
    (s.bounce target).canceled = s.store.world.canceled := by
  obtain ⟨st, machine, control, run, waiting⟩ := s
  have hfail : ∀ st e, (fail run waiting st e).canceled = st.world.canceled := fun st e =>
    Place.Reaches.canceled (x := ⟨st, machine, run, waiting⟩) (Place.reaches_fail e)
  simp only [bounce]
  split
  · exact hfail _ _
  · split_ifs
    · exact hfail _ _
    · rfl

/-- A step does not tell the evaluation to stop. -/
theorem canceled_step (hs : s.Only Action.Capturing) :
    s.step.canceled = s.store.world.canceled := by
  unfold step
  split
  · exact canceled_execute hs
  · dsimp only
    split_ifs
    · exact canceled_bounce s.charge _
    · exact canceled_execute (only_charge hs)

end State

/-! ## An evaluation under way -/

namespace State

/-- The only run goes on, on a machine that may bounce as often as it likes, and with no builtins
but those that write, capture and resume. Another machine may be at work. -/
structure Driven (s : State) : Prop where
  only : s.Only Action.Capturing
  waiting : s.waiting = []
  canceled : s.store.world.canceled = none
  ready : s.store.Ready s.run.machine

variable {s s' : State}

theorem driven_charge (hs : s.Driven) : s.charge.Driven :=
  ⟨only_charge hs.only, hs.waiting, hs.canceled, hs.ready.modifyMachine s.machine fun _ => rfl⟩

theorem driven_pay (hs : s.Driven) : s.pay.Driven := by
  unfold pay
  split_ifs
  · exact driven_charge hs
  · exact hs

theorem driven_renew (hs : s.Driven) : s.renew.Driven := by
  have hcharge := driven_charge hs
  have hcounted := hcharge.ready.modifyMachine s.run.machine
    (f := fun m => { m with bounces := m.bounces + 1 }) fun _ => rfl
  exact ⟨⟨⟨hs.only.store.world, hs.only.store.buffers⟩, hs.only.control, hs.only.run,
    hs.only.waiting⟩, hs.waiting, hs.canceled, hcounted.modifyMachine s.run.machine fun _ => rfl⟩

/-- What a step leads to, if it does not end the run. -/
theorem driven_execute (hs : s.Driven) (h : s.execute = .running s') :
    s'.Driven ∧ s'.run = s.run ∧
      (s.isGuarded = false → s'.control.distance < s.control.distance) := by
  have honly := only_execute (Action.capturing_provides s.machine) hs.only
  have hready := ready_execute hs.ready
  have hnear := Control.approaches_execute (m := s.machine) s.store hs.only.control
  have hcanceled := Control.canceled_execute (m := s.machine) s.store hs.only.control
  have hnest : ∀ st node scope resumption,
      s.control.execute s.store s.machine ≠ .nest st node scope resumption := by
    intro st node scope resumption he
    rw [he] at hnear
    exact hnear
  obtain ⟨heffect, hrun, hwaiting⟩ := advance_of_running hs.waiting hnest h
  rw [heffect] at hnear hcanceled
  rw [h] at honly hready
  have hready : s'.store.Ready s'.run.machine := hrun ▸ hready
  refine ⟨⟨honly, hwaiting, hcanceled.trans hs.canceled, hready⟩, hrun, fun hguard => hnear ?_⟩
  rwa [isGuarded, Option.isSome_eq_false_iff, Option.isNone_iff_eq_none] at hguard

/-- A bounce is let pass, and the step is tried again. -/
theorem step_eq_renew_of_driven (hs : s.Driven) (h : s.mustBounce = true) :
    s.step = .running s.renew := by
  obtain ⟨target, -, hstep⟩ := step_eq_bounce h
  have hcounted := (driven_charge hs).ready.modifyMachine s.run.machine
    (f := fun m => { m with bounces := m.bounces + 1 }) fun _ => rfl
  have hlimit := hcounted.settings.1
  have hcanceled := hs.canceled
  rw [hstep]
  obtain ⟨st, machine, control, run, waiting⟩ := s
  simp only [charge, bounce, renew, counted, Store.modifyMachine] at hlimit hcanceled ⊢
  simp only [hcanceled, hlimit]
  rfl

theorem driven_step (hs : s.Driven) (h : s.step = .running s') : s'.Driven := by
  by_cases hb : s.mustBounce = true
  · rw [step_eq_renew_of_driven hs hb] at h
    cases h
    exact driven_renew hs
  · rw [step_eq_execute (Bool.not_eq_true _ ▸ hb)] at h
    exact (driven_execute (driven_pay hs) h).1

theorem driven_iterate (hs : s.Driven) {n : Nat} (h : iterate step n s = .running s') :
    s'.Driven :=
  iterate_keeps (fun _ _ => driven_step) hs h

/-! ## After a bounce -/

/-- The machine of the run has a new budget, so its step is let through. -/
theorem mustBounce_renew (hs : s.Driven) (hown : s.machine = s.run.machine)
    (h : s.mustBounce = true) : s.renew.mustBounce = false := by
  have hplace : s.place.On s.run.machine :=
    ⟨hown, rfl, fun w hw => absurd hw (by rw [State.place, hs.waiting]; exact List.not_mem_nil),
      hs.ready.bound, hs.canceled⟩
  have hunlimited : s.Unlimited Action.Capturing s.run.machine :=
    ⟨⟨hs.only, hplace⟩, hs.ready.settings.1, hs.ready.settings.2⟩
  exact (unlimited_bounce hunlimited h).2.2

/-- Another machine has no new budget, so its step bounces again. -/
theorem mustBounce_renew_of_ne (hne : s.machine ≠ s.run.machine) (h : s.mustBounce = true) :
    s.renew.mustBounce = true := by
  obtain ⟨hguard, hspent⟩ : s.isGuarded = true ∧ s.charge.isSpent = true := by
    simpa [mustBounce] using h
  have hspent : (s.charge.store.machine s.machine).budget < 0 := of_decide_eq_true hspent
  have hrenew : s.renew.store.machine s.machine = s.charge.store.machine s.machine := by
    simp only [renew, counted]
    rw [Store.machine_modifyMachine_of_ne (Ne.symm hne),
      Store.machine_modifyMachine_of_ne (Ne.symm hne)]
  have hbound : s.machine < s.renew.store.machines.size := by
    refine Nat.lt_of_not_le fun hle => ?_
    rw [← hrenew, Store.machine, Array.getElem?_eq_none hle] at hspent
    exact absurd hspent (by decide)
  have hagain : s.renew.charge.store.machine s.machine =
      { s.charge.store.machine s.machine with
        steps := (s.charge.store.machine s.machine).steps + 1
        budget := (s.charge.store.machine s.machine).budget - 1 } := by
    rw [← hrenew]
    exact Store.machine_modifyMachine hbound _
  refine Bool.and_eq_true_iff.2 ⟨hguard, decide_eq_true ?_⟩
  show (s.renew.charge.store.machine s.machine).budget < 0
  rw [hagain]
  show (s.charge.store.machine s.machine).budget - 1 < 0
  omega

/-- Where another machine has to bounce, the evaluation bounces for ever. -/
theorem running_of_foreign_bounce (hs : s.Driven) (hne : s.machine ≠ s.run.machine)
    (h : s.mustBounce = true) (n : Nat) : ∃ s', iterate step n s = .running s' := by
  induction n generalizing s with
  | zero => exact ⟨s, rfl⟩
  | succ n ih =>
    rw [iterate_succ_running (step_eq_renew_of_driven hs h)]
    exact ih (driven_renew hs) hne (mustBounce_renew_of_ne hne h)

/-- From such a bounce on nothing ends the evaluation, so nothing has ended it before. -/
theorem running_of_reaches_foreign_bounce (hs : s.Driven) {k : Nat}
    (hk : iterate step k s = .running s') (hne : s'.machine ≠ s'.run.machine)
    (h : s'.mustBounce = true) (n : Nat) : ∃ y, iterate step n s = .running y := by
  cases hn : iterate step n s with
  | running y => exact ⟨y, rfl⟩
  | finished st result =>
    obtain ⟨y, hy⟩ := running_of_foreign_bounce (driven_iterate hs hk) hne h n
    have hlate := iterate_add hk n
    rw [hy, Nat.add_comm, iterate_add_finished hn] at hlate
    cases hlate

/-! ## Progress -/

/-- Whenever the evaluation bounces, the machine of the run is at work. -/
def OwnBounces (s : State) : Prop :=
  ∀ n s', iterate step n s = .running s' → s'.mustBounce = true → s'.machine = s'.run.machine

/-- Every step that bounces is let through the next time, and the evaluation ends if only so many
steps pass a guard. -/
def Progresses (s : State) : Prop :=
  (∀ n y z, iterate step n s = .running y → y.mustBounce = true → y.step = .running z →
    z.mustBounce = false) ∧
  ((∃ bound, ∀ n, guards (s.trace n) ≤ bound) →
    ∃ n st result, iterate step n s = .finished st result)

theorem OwnBounces.iterate (h : s.OwnBounces) {n : Nat} (hn : iterate step n s = .running s') :
    s'.OwnBounces := by
  intro n' y hy hb
  exact h (n + n') y ((iterate_add hn n').trans hy) hb

theorem trace_succ_running (h : s.step = .running s') (n : Nat) :
    s.trace (n + 1) = (if s.mustBounce then [] else [s.label]) ++ s'.trace n :=
  record_succ_running h n

/-- A step with a guard that is let through. -/
theorem guards_passed (hguard : s.isGuarded = true) (hb : s.mustBounce = false)
    (h : s.step = .running s') : guards (s.trace 1) = 1 := by
  rw [trace_succ_running h, hb]
  show guards [s.label] = 1
  simp [guards, label, hguard]

/-- Sooner or later the evaluation ends or passes a guard. -/
theorem ends_or_passes (hs : s.Driven) (hown : s.OwnBounces) :
    (∃ n st result, iterate step n s = .finished st result) ∨
      ∃ n s', iterate step n s = .running s' ∧ 1 ≤ guards (s.trace n) := by
  induction hd : s.control.distance using Nat.strongRecOn generalizing s with
  | ind d ih =>
    cases hstep : s.step with
    | finished st result => exact .inl ⟨1, st, result, iterate_succ_finished hstep 0⟩
    | running t =>
      have hone : iterate step 1 s = .running t := iterate_succ_running hstep 0
      by_cases hb : s.mustBounce = true
      · -- The step is tried again, and this time it is let through.
        have hmachine := hown 0 s rfl hb
        have hrenewed := mustBounce_renew hs hmachine hb
        obtain rfl : t = s.renew :=
          Progress.running.inj (hstep.symm.trans (step_eq_renew_of_driven hs hb))
        have hguard : s.renew.isGuarded = true := (Bool.and_eq_true_iff.1 hb).1
        cases hstep' : s.renew.step with
        | finished st result =>
          exact .inl ⟨2, st, result, (iterate_succ_running hstep 1).trans
            (iterate_succ_finished hstep' 0)⟩
        | running u =>
          refine .inr ⟨2, u, (iterate_succ_running hstep 1).trans
            (iterate_succ_running hstep' 0), ?_⟩
          rw [trace_succ_running hstep, if_pos hb, List.nil_append,
            guards_passed hguard hrenewed hstep']
      · rw [Bool.not_eq_true] at hb
        by_cases hguard : s.isGuarded = true
        · exact .inr ⟨1, t, hone, (guards_passed hguard hb hstep).ge⟩
        · -- Without a guard the step comes nearer to one.
          have hexecute := hstep
          rw [step_eq_execute hb, pay, if_neg hguard] at hexecute
          obtain ⟨ht, -, hnearer⟩ := driven_execute hs hexecute
          have hlt : t.control.distance < d := hd ▸ hnearer (Bool.not_eq_true _ ▸ hguard)
          rcases ih _ hlt ht (hown.iterate hone) rfl with ⟨n, st, result, hn⟩ | ⟨n, u, hn, hpass⟩
          · exact .inl ⟨n + 1, st, result, (iterate_succ_running hstep n).trans hn⟩
          · refine .inr ⟨n + 1, u, (iterate_succ_running hstep n).trans hn, ?_⟩
            rw [trace_succ_running hstep, guards_append]
            omega

/-- If only so many steps pass a guard, the evaluation ends. -/
theorem ends_of_bounded (hs : s.Driven) (hown : s.OwnBounces) {bound : Nat}
    (h : ∀ n, guards (s.trace n) ≤ bound) :
    ∃ n st result, iterate step n s = .finished st result := by
  induction bound generalizing s with
  | zero =>
    rcases ends_or_passes hs hown with hend | ⟨n, s', -, hpass⟩
    · exact hend
    · have hn := h n
      omega
  | succ bound ih =>
    rcases ends_or_passes hs hown with hend | ⟨n, s', hn, hpass⟩
    · exact hend
    · have hrest : ∀ k, guards (s'.trace k) ≤ bound := by
        intro k
        have hk := h (n + k)
        rw [trace, record_add hn, guards_append] at hk
        change guards (s.trace n) + guards (s'.trace k) ≤ bound + 1 at hk
        omega
      obtain ⟨k, st, result, hk⟩ := ih (driven_iterate hs hn) (hown.iterate hn) hrest
      exact ⟨n + k, st, result, (iterate_add hn k).trans hk⟩

theorem progresses_iff_ownBounces (hs : s.Driven) : s.Progresses ↔ s.OwnBounces := by
  constructor
  · rintro ⟨hpass, -⟩ n y hy hb
    by_contra hne
    have hy' := driven_iterate hs hy
    have hrenewed := hpass n y _ hy hb (step_eq_renew_of_driven hy' hb)
    rw [mustBounce_renew_of_ne hne hb] at hrenewed
    cases hrenewed
  · refine fun hown => ⟨fun n y z hy hb hz => ?_, fun ⟨bound, h⟩ => ends_of_bounded hs hown h⟩
    have hy' := driven_iterate hs hy
    rw [step_eq_renew_of_driven hy' hb] at hz
    cases hz
    exact mustBounce_renew hy' (hown n y hy hb) hb

/-- Otherwise the evaluation never ends. -/
theorem progresses_or_runs (hs : s.Driven) :
    (s.Progresses ↔ s.OwnBounces) ∧
      (¬s.OwnBounces → ∀ n, ∃ y, iterate step n s = .running y) := by
  refine ⟨progresses_iff_ownBounces hs, fun hforeign n => ?_⟩
  obtain ⟨k, y, hy, hb, hne⟩ : ∃ k y, iterate step k s = .running y ∧
      y.mustBounce = true ∧ y.machine ≠ y.run.machine := by
    simpa [OwnBounces] using hforeign
  exact running_of_reaches_foreign_bounce hs hy hne hb n

/-- Where one machine does all the work, all bounces are its own. -/
theorem Unlimited.ownBounces {p : Action → Prop} {m : Nat} (hc : Confined p m)
    (hs : s.Unlimited p m) : s.OwnBounces := by
  intro n y hy _
  have hplace := (iterate_keeps (fun _ _ => unlimited_step hc) hs hy).place
  exact hplace.machine.trans hplace.run.symm

end State

/-! ## Sessions -/

theorem Settings.one_le_stackBudget_clamp (s : Settings) : 1 ≤ s.clamp.stackBudget := by
  simp only [clamp, defaultBudget, maxBudget]
  split_ifs <;> omega

namespace Session

/-- A session with no builtins but those that write, capture and resume, and that nobody stops.
Earlier evaluations may have left continuations behind. -/
structure Capturing (s : Session) : Prop where
  only : s.store.Only Action.Capturing
  canceled : s.store.world.canceled = none

theorem driven_start {s : Session} (hs : s.Capturing) {o : Override}
    (hlimit : (s.settings.effective o).maxBounces = 0) (p : Program) : (s.start o p).Driven := by
  have hready : (s.store.addMachine (s.settings.effective o)).1.Ready s.store.machines.size :=
    ⟨{ settings := s.settings.effective o }, Array.getElem?_push_size, hlimit,
      Settings.one_le_stackBudget_clamp _⟩
  exact ⟨Store.only_start (hs.only.addMachine _) _ _ _, rfl, hs.canceled,
    hready.modifyMachine s.store.machines.size fun _ => rfl⟩

/-- An evaluation leaves nothing behind but values, continuations and builtins that capture or
resume. -/
theorem Capturing.eval {s : Session} (hs : s.Capturing) (o : Override) (source : Text) :
    (s.eval o source).1.Capturing := by
  obtain ⟨e, -, hsession, -⟩ | ⟨p, -, ⟨n, st, result, hrun, hsession, -⟩ | ⟨hsession, -⟩⟩ :=
    s.eval_cases o source
  · exact hsession.symm ▸ hs
  · have hstart : (s.start o p).Only Action.Capturing :=
      Store.only_start (hs.only.addMachine _) _ _ _
    have hend := State.runWithin_keeps
      (P := fun q => q.Only Action.Capturing ∧ q.canceled = none)
      (fun x hx => ⟨State.only_step (Action.capturing_provides x.machine) hx.1,
        (State.canceled_step hx.1).trans hx.2⟩)
      ⟨hstart, hs.canceled⟩ (State.runWithin_eq_some_iff.2 hrun)
    rw [hsession]
    exact ⟨hend.1.1, hend.2⟩
  · have hnothing : Store.Only Action.Capturing {} :=
      ⟨⟨fun f hf => absurd hf (Array.not_mem_empty f), fun _ h => h.elim⟩,
        fun vs hvs => absurd hvs (Array.not_mem_empty vs)⟩
    rw [hsession]
    exact ⟨hnothing, rfl⟩

theorem Capturing.evalAll {s : Session} (hs : s.Capturing) (inputs : List (Override × Text)) :
    (s.evalAll inputs).Capturing :=
  evalAll_keeps (fun _ o source h => h.eval o source) hs inputs

/-- An evaluation in a session makes progress with every bounce just if whenever it bounces the
machine of its run is at work. Otherwise it never ends. -/
theorem progresses_iff {s : Session} (hs : s.Capturing) {o : Override}
    (hlimit : (s.settings.effective o).maxBounces = 0) (p : Program) :
    ((s.start o p).Progresses ↔ (s.start o p).OwnBounces) ∧
      (¬(s.start o p).OwnBounces →
        ∀ n, ∃ y, State.iterate State.step n (s.start o p) = .running y) :=
  State.progresses_or_runs (driven_start hs hlimit p)

/-- The same holds of every evaluation in the course of a session. -/
theorem progresses_or_runs_after {s : Session} (hs : s.Capturing)
    (inputs : List (Override × Text)) {o : Override}
    (hlimit : (s.settings.effective o).maxBounces = 0) (p : Program) :
    (((s.evalAll inputs).start o p).Progresses ↔ ((s.evalAll inputs).start o p).OwnBounces) ∧
      (¬((s.evalAll inputs).start o p).OwnBounces →
        ∀ n, ∃ y, State.iterate State.step n ((s.evalAll inputs).start o p) = .running y) :=
  State.progresses_or_runs
    (driven_start (hs.evalAll inputs) ((s.settings_evalAll inputs).symm ▸ hlimit) p)

/-- A session whose programs can capture continuations. -/
def withCallcc : Session :=
  (Session.new {}).mapWorld fun w => w.addBuiltins 0 [("callcc", .callcc)]

theorem withCallcc_only {p : Action → Prop} (hp : p .print ∧ p .println) (hcallcc : p .callcc) :
    withCallcc.store.Only p := by
  have hstore : (Store.ofBuiltins .silent [("callcc", .callcc)]).Only p := by
    refine Store.ofBuiltins_only hp ?_ fun _ _ e es he _ => ⟨he.2, trivial⟩
    simpa [Action.Only] using hcallcc
  refine ⟨hstore.world, ?_⟩
  simp [withCallcc, mapWorld, Session.new]

/-- A budget of one step. -/
def stepwise : Override := { stackBudget := some 1 }

/-- The program of `k = callcc(lambda (e) e)`. -/
def keepContinuation : Program :=
  ⟨⟨1, 1⟩, [.assign ⟨1, 1⟩ (.identifier ⟨1, 1⟩ (bytes "k"))
    (.call ⟨1, 5⟩ (.identifier ⟨1, 5⟩ (bytes "callcc"))
      [.lambda ⟨1, 12⟩ none [bytes "e"] (.identifier ⟨1, 23⟩ (bytes "e"))])]⟩

/-- The program of `k(true)`. -/
def useContinuation : Program :=
  ⟨⟨1, 1⟩, [.call ⟨1, 1⟩ (.identifier ⟨1, 1⟩ (bytes "k")) [.bool ⟨1, 3⟩ true]]⟩

theorem withCallcc_capturing : withCallcc.Capturing :=
  ⟨withCallcc_only ⟨trivial, trivial⟩ trivial, rfl⟩

/-- The first evaluation of a session finds no continuations of other machines. -/
theorem progresses_keepContinuation : withCallcc.Capturing ∧
    (withCallcc.settings.effective stepwise).maxBounces = 0 ∧
    (withCallcc.start stepwise keepContinuation).Progresses := by
  refine ⟨withCallcc_capturing, rfl, (progresses_iff withCallcc_capturing rfl _).1.2 ?_⟩
  have honly : withCallcc.store.Only (Action.Tame 0) :=
    withCallcc_only ⟨trivial, trivial⟩ trivial
  exact State.Unlimited.ownBounces (Action.tame_confined 0)
    (Store.unlimited_of_ready (honly.addMachine _) ⟨_, rfl, rfl, by decide⟩ rfl _ _)

/-- What is left when `k = callcc(lambda (e) e)` has been evaluated. -/
def leftBehind : Session := (withCallcc.eval stepwise (bytes "k = callcc(lambda (e) e)")).1

theorem leftBehind_capturing : leftBehind.Capturing := withCallcc_capturing.eval _ _

/-- An evaluation resumes a continuation that an earlier one has left behind, and whose machine has
no budget left. It bounces again at once, and never ends. -/
theorem not_progresses_leftBehind :
    ¬(leftBehind.start stepwise useContinuation).Progresses ∧
      ∀ n, ∃ y, State.iterate State.step n (leftBehind.start stepwise useContinuation) =
        .running y := by
  have hstart := driven_start leftBehind_capturing (o := stepwise) rfl useContinuation
  obtain ⟨y, hy, hmachine, hb⟩ : ∃ y,
      State.iterate State.step 18 (leftBehind.start stepwise useContinuation) = .running y ∧
        y.machine ≠ y.run.machine ∧ y.mustBounce = true :=
    ⟨_, rfl, by decide, rfl⟩
  refine ⟨fun hprogress => ?_,
    fun n => State.running_of_reaches_foreign_bounce hstart hy hmachine hb n⟩
  exact hmachine ((State.progresses_iff_ownBounces hstart).1 hprogress 18 y hy hb)

end Session

end Mycel
