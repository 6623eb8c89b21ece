import Mycel.Proofs.Machine.Budget

/-!
# The places of a buffer

The arguments of a call are gathered in a buffer that has a place for each of them. A step changes
what is in a place only if it resumes the continuation of that argument (`State.valueAt?_step`), so
in a run a place holds what was put there last (`State.valueAt?_iterate`). It does not matter which
of the continuations of the argument has put it there.

This rests on an invariant, `State.Placed`: wherever there is a continuation of an argument, in a
captured one as well, the places of the arguments before it are filled.
-/

namespace Mycel

namespace Store

variable {st st' : Store} {buffer place filled : Nat} {v : Value}

/-- The first `filled` places of a buffer are filled. -/
def Holds (st : Store) (buffer filled : Nat) : Prop :=
  ∃ vs, st.buffers[buffer]? = some vs ∧ filled ≤ vs.size

/-- What is in a place of a buffer. -/
def valueAt? (st : Store) (buffer place : Nat) : Option Value :=
  st.buffers[buffer]?.bind (·[place]?)

theorem holds_congr (h : st.buffers = st'.buffers) : st.Holds = st'.Holds := by
  funext buffer filled
  rw [Holds, Holds, h]

theorem valueAt?_congr (h : st.buffers = st'.buffers) : st.valueAt? = st'.valueAt? := by
  funext buffer place
  rw [valueAt?, valueAt?, h]

theorem length_buffered (h : st.Holds buffer filled) :
    (st.buffered buffer filled).length = filled := by
  obtain ⟨vs, hvs, hsize⟩ := h
  simp [buffered, hvs, hsize]

theorem getElem?_buffered (hplace : place < filled) :
    (st.buffered buffer filled)[place]? = st.valueAt? buffer place := by
  rw [buffered, List.getElem?_take_of_lt hplace, valueAt?]
  cases st.buffers[buffer]? with
  | none => simp
  | some vs => simp

theorem Holds.addBuffer (h : st.Holds buffer filled) : st.addBuffer.1.Holds buffer filled := by
  obtain ⟨vs, hvs, hsize⟩ := h
  obtain ⟨hlt, hget⟩ := Array.getElem?_eq_some_iff.1 hvs
  exact ⟨vs, (Array.getElem?_push_lt hlt).trans (congrArg some hget), hsize⟩

theorem holds_addBuffer (st : Store) : st.addBuffer.1.Holds st.addBuffer.2 0 :=
  ⟨#[], by simp [addBuffer], Nat.zero_le _⟩

/-- A new buffer is empty. -/
theorem valueAt?_addBuffer (st : Store) (buffer place : Nat) :
    st.addBuffer.1.valueAt? buffer place = st.valueAt? buffer place := by
  simp only [valueAt?, addBuffer, Array.getElem?_push]
  split_ifs with h
  · simp [h]
  · rfl

theorem Holds.fillBuffer (h : st.Holds buffer filled) (buffer' filled' : Nat) (v : Value) :
    (st.fillBuffer buffer' filled' v).Holds buffer filled := by
  obtain ⟨vs, hvs, hsize⟩ := h
  rw [Holds, Store.fillBuffer, Array.getElem?_modify]
  split_ifs
  · rw [hvs]
    refine ⟨_, rfl, ?_⟩
    dsimp only
    split_ifs
    · rwa [Array.size_setIfInBounds]
    · rw [Array.size_push]
      omega
  · exact ⟨vs, hvs, hsize⟩

theorem getElem?_fill {vs : Array Value} (h : filled ≤ vs.size) (v : Value) (place : Nat) :
    (if filled < vs.size then vs.setIfInBounds filled v else vs.push v)[place]? =
      if place = filled then some v else vs[place]? := by
  split_ifs with hlt hplace hplace
  · rw [hplace, Array.getElem?_setIfInBounds_self_of_lt hlt]
  · exact Array.getElem?_setIfInBounds_ne (Ne.symm hplace)
  · obtain rfl : filled = vs.size := by omega
    rw [hplace, Array.getElem?_push_size]
  · obtain rfl : filled = vs.size := by omega
    rw [Array.getElem?_push, if_neg hplace]

theorem valueAt?_fillBuffer (h : st.Holds buffer filled) (v : Value) (buffer' place : Nat) :
    (st.fillBuffer buffer filled v).valueAt? buffer' place =
      if buffer = buffer' ∧ filled = place then some v else st.valueAt? buffer' place := by
  obtain ⟨vs, hvs, hsize⟩ := h
  rw [valueAt?, fillBuffer, Array.getElem?_modify]
  by_cases hbuffer : buffer = buffer'
  · subst hbuffer
    rw [if_pos rfl, hvs, Option.map_some, Option.bind_some, getElem?_fill hsize, valueAt?, hvs,
      Option.bind_some]
    simp only [true_and, eq_comm]
  · rw [if_neg hbuffer, if_neg fun h => hbuffer h.1, valueAt?]

theorem holds_fillBuffer (h : st.Holds buffer filled) (v : Value) :
    (st.fillBuffer buffer filled v).Holds buffer (filled + 1) := by
  have hat := valueAt?_fillBuffer h v buffer filled
  obtain ⟨vs, hvs, -⟩ := h.fillBuffer buffer filled v
  rw [if_pos ⟨rfl, rfl⟩, valueAt?, hvs, Option.bind_some] at hat
  exact ⟨vs, hvs, (Array.getElem?_eq_some_iff.1 hat).1⟩

end Store

/-! ## The invariant -/

/-- Wherever a continuation will put a value satisfies `P`: the buffer and the place. -/
def Continuation.Places (P : Nat → Nat → Prop) : Continuation → Prop
  | .argument _ _ _ _ buffer place k => P buffer place ∧ k.Places P
  | .assign _ _ _ k | .left _ _ _ _ k | .right _ _ _ k | .branch _ _ _ k | .sequence _ _ k
  | .callee _ _ _ k | .bind _ _ _ _ k | .applied k | .again _ k => k.Places P
  | .final _ | .hosted _ => True

/-- A builtin writes, captures a continuation, or resumes one that puts its values where `P` holds.
-/
def Action.Places (P : Nat → Nat → Prop) : Action → Prop
  | .print | .println | .callcc => True
  | .escape _ k => k.Places P
  | _ => False

/-- Wherever a step, or what follows it, will put a value satisfies `P`. -/
def Control.Places (P : Nat → Nat → Prop) : Control → Prop
  | .arguments _ _ _ _ buffer filled k => P buffer filled ∧ k.Places P
  | .evaluate _ _ k | .sequence _ _ _ k | .bindings _ _ _ k | .enter _ _ k | .resume k _
  | .perform _ _ k => k.Places P
  | .report _ _ => True

section

variable {P Q : Nat → Nat → Prop}

theorem Continuation.places_imp (hPQ : ∀ buffer place, P buffer place → Q buffer place) :
    ∀ k : Continuation, k.Places P → k.Places Q
  | .argument _ _ _ _ buffer place k, h => ⟨hPQ buffer place h.1, places_imp hPQ k h.2⟩
  | .assign _ _ _ k, h | .left _ _ _ _ k, h | .right _ _ _ k, h | .branch _ _ _ k, h
  | .sequence _ _ k, h | .callee _ _ _ k, h | .bind _ _ _ _ k, h | .applied k, h
  | .again _ k, h => places_imp hPQ k h
  | .final _, _ | .hosted _, _ => trivial

theorem Action.places_imp (hPQ : ∀ buffer place, P buffer place → Q buffer place)
    (action : Action) (h : action.Places P) : action.Places Q := by
  cases action with
  | print | println | callcc => trivial
  | escape machine k => exact k.places_imp hPQ h
  | _ => exact h.elim

end

/-- Every builtin within reach of a store writes, captures or resumes, and what it resumes puts
values only after places that are filled. -/
def Store.Placed (st : Store) : Prop := st.Only (Action.Places st.Holds)

/-- The only run goes on, and wherever a value will be put the places before are filled. -/
structure State.Placed (s : State) : Prop where
  store : s.store.Placed
  only : s.control.Only (Action.Places s.store.Holds)
  control : s.control.Places s.store.Holds
  waiting : s.waiting = []

def Progress.Placed : Progress → Prop
  | .running s => s.Placed
  | .finished st _ => st.Placed

/-- More places are filled, with the same builtins within reach. -/
theorem Store.Placed.grow {st st' : Store} (h : st'.Only (Action.Places st.Holds))
    (hgrow : ∀ buffer filled, st.Holds buffer filled → st'.Holds buffer filled) : st'.Placed :=
  h.imp (Action.places_imp hgrow) fun _ => id

/-! ## What a step does -/

namespace Control

/-- What a step does to the buffers of a store. -/
def fill (st : Store) : Control → Store
  | .resume (.callee _ _ _ _) _ => st.addBuffer.1
  | .resume (.argument _ _ _ _ buffer place _) v => st.fillBuffer buffer place v
  | _ => st

/-- The value that a step puts in a place. -/
def puts? (buffer place : Nat) : Control → Option Value
  | .resume (.argument _ _ _ _ b i _) v => if b = buffer ∧ i = place then some v else none
  | _ => none

variable {st : Store} {c : Control} {buffer place filled : Nat}

theorem holds_fill (h : st.Holds buffer filled) : (c.fill st).Holds buffer filled := by
  unfold fill
  split
  · exact h.addBuffer
  · exact h.fillBuffer _ _ _
  · exact h

theorem valueAt?_fill (hc : c.Places st.Holds) :
    (c.fill st).valueAt? buffer place = (c.puts? buffer place).or (st.valueAt? buffer place) := by
  cases c with
  | resume k v =>
    cases k with
    | callee pos args scope k => exact st.valueAt?_addBuffer buffer place
    | argument pos rest scope callee b i k =>
      rw [fill, Store.valueAt?_fillBuffer hc.1, puts?]
      split_ifs <;> rfl
    | _ => rfl
  | _ => rfl

end Control

namespace Store

variable (st : Store) (m : Nat)

theorem buffers_evaluate (scope : ScopeId) (k : Continuation) (node : Node) :
    (st.evaluate m scope k node).store.buffers = st.buffers := by
  cases node with
  | identifier pos name =>
    simp only [evaluate]
    split <;> rfl
  | assign pos target value => cases target <;> rfl
  | _ => rfl

theorem buffers_apply (f : Value) (args : List Value) (k : Continuation) :
    (st.apply m f args k).store.buffers = st.buffers := by
  unfold apply
  split <;> rfl

theorem buffers_consult (notice : Notice) :
    (st.consult m notice).store.buffers = st.buffers := by
  simp only [consult]
  cases (st.world.tell notice).2 with
  | apply f args number => exact buffers_apply _ m f args _
  | _ => rfl

theorem buffers_resume (v : Value) (k : Continuation) :
    (st.resume m v k).store.buffers = ((Control.resume k v).fill st).buffers := by
  cases k with
  | assign pos name scope k =>
    simp only [resume]
    split <;> rfl
  | right pos o left k =>
    simp only [resume]
    split <;> rfl
  | branch whenTrue whenFalse scope k =>
    simp only [resume]
    split_ifs <;> rfl
  | again f k => exact st.buffers_apply m f [v] _
  | hosted number => exact st.buffers_consult m _
  | _ => rfl

theorem buffers_perform (args : List Value) (k : Continuation) (action : Action) :
    (st.perform m args k action).store.buffers = st.buffers := by
  cases action with
  | print | println =>
    simp only [perform, writeFor]
    split <;> rfl
  | apply | twice | callcc => exact buffers_apply _ m _ _ _
  | inner hosted =>
    simp only [perform]
    split <;> rfl
  | host number => exact st.buffers_consult m _
  | _ => rfl

end Store

theorem Control.buffers_execute (st : Store) (m : Nat) (c : Control) :
    (c.execute st m).store.buffers = (c.fill st).buffers := by
  cases c with
  | evaluate node scope k => exact st.buffers_evaluate m scope k node
  | sequence rest scope last k => cases rest <;> rfl
  | arguments pos rest scope callee buffer filled k =>
    cases rest with
    | nil =>
      simp only [execute]
      split <;> rfl
    | cons node rest => rfl
  | bindings rest body scope k =>
    cases rest with
    | nil => rfl
    | cons b rest =>
      simp only [execute]
      split_ifs <;> rfl
  | enter closure args k => rfl
  | resume k v => exact st.buffers_resume m v k
  | perform action args k => exact st.buffers_perform m args k action
  | report number result => exact st.buffers_consult m _

/-- An effect that starts no run, and after which values are put only where places are filled. -/
def Effect.Places : Effect → Prop
  | .advance st _ c => c.Places st.Holds
  | .nest _ _ _ _ => False
  | _ => True

namespace Store

variable {st : Store} {k : Continuation} (m : Nat)

theorem places_evaluate (hk : k.Places st.Holds) (scope : ScopeId) (node : Node) :
    (st.evaluate m scope k node).Places := by
  cases node with
  | identifier pos name =>
    simp only [evaluate]
    split
    · exact hk
    · trivial
  | assign pos target value =>
    cases target with
    | identifier => exact hk
    | _ => trivial
  | missing => trivial
  | _ => exact hk

theorem places_call? (hk : k.Places st.Holds) {f : Value} {args : List Value} {c : Control}
    (h : f.call? args k = some c) : c.Places st.Holds := by
  cases f with
  | closure | builtin =>
    cases h
    exact hk
  | _ => cases h

theorem places_apply (hk : k.Places st.Holds) (f : Value) (args : List Value) :
    (st.apply m f args k).Places := by
  unfold apply
  split
  · rename_i control hcall
    exact places_call? hk hcall
  · trivial

theorem places_resume (hk : k.Places st.Holds) (v : Value)
    (honly : k.Only (Action.Places st.Holds)) : (st.resume m v k).Places := by
  cases k with
  | final run => trivial
  | assign pos name scope k =>
    simp only [resume]
    split
    · exact hk
    · trivial
  | right pos o left k =>
    simp only [resume]
    split
    · exact hk
    · trivial
  | branch whenTrue whenFalse scope k =>
    simp only [resume]
    split_ifs <;> exact hk
  | callee pos args scope k =>
    exact ⟨st.holds_addBuffer, k.places_imp (fun _ _ => Holds.addBuffer) hk⟩
  | argument pos rest scope callee buffer filled k =>
    exact ⟨holds_fillBuffer hk.1 v,
      k.places_imp (fun _ _ h => h.fillBuffer buffer filled v) hk.2⟩
  | again f k => exact places_apply (k := .applied k) m hk f [v]
  | hosted number => exact honly.elim
  | _ => exact hk

theorem places_perform (hk : k.Places st.Holds) (args : List Value) {action : Action}
    (h : action.Only (Action.Places st.Holds)) : (st.perform m args k action).Places := by
  cases action with
  | print | println =>
    simp only [perform, writeFor]
    split
    · exact hk
    · trivial
  | callcc =>
    refine places_apply (k := .applied k) m ?_ _ _
    exact hk
  | escape machine k' => exact h.1
  | _ => exact h.elim

end Store

namespace Control

variable {st : Store} {c : Control} (m : Nat)

theorem places_execute (hc : c.Places st.Holds) (honly : c.Only (Action.Places st.Holds)) :
    (c.execute st m).Places := by
  cases c with
  | evaluate node scope k => exact Store.places_evaluate m hc scope node
  | sequence rest scope last k => cases rest <;> exact hc
  | arguments pos rest scope callee buffer filled k =>
    cases rest with
    | nil =>
      simp only [execute]
      split
      · rename_i control hcall
        exact Store.places_call? hc.2 hcall
      · trivial
    | cons node rest => exact hc
  | bindings rest body scope k =>
    cases rest with
    | nil => exact hc
    | cons b rest =>
      simp only [execute]
      split_ifs <;> exact hc
  | enter closure args k => exact hc
  | resume k v => exact Store.places_resume m hc v honly.1
  | perform action args k => exact Store.places_perform m hc args honly.1
  | report number result => exact honly.1.elim

/-- Only a builtin that captures makes another one, and the continuation that this one will resume
is the one that the step had. -/
theorem execute_only_places (hs : st.Placed) (hc : c.Places st.Holds)
    (honly : c.Only (Action.Places st.Holds)) :
    (c.execute st m).Only (Action.Places st.Holds) := by
  refine execute_only_of hs honly ?_
  rintro action args k rfl
  cases action with
  | print | println => exact Store.only_writeFor hs m _ _ honly.2.2
  | callcc =>
    have hworld : Store.Only (Action.Places st.Holds)
        { st with world := { st.world with fresh := st.world.fresh + 1 } } :=
      hs.withWorld ⟨hs.world.heap, hs.world.host⟩
    have hescape : (Action.escape m k).Only (Action.Places st.Holds) := ⟨hc, honly.2.2⟩
    exact Store.only_apply hworld m (Store.only_headD honly.2.1)
      (by simpa [Value.Only] using hescape) honly.2.2
  | escape machine k' => exact ⟨hs, honly.1.2, Store.only_headD honly.2.1⟩
  | _ => exact honly.1.elim

end Control

/-! ## Runs -/

theorem Store.Placed.endRun {st : Store} (hs : st.Placed) (run : Run) (failure : Option Error) :
    (st.endRun run failure).Placed := by
  rw [Store.Placed, holds_congr (st.heap_endRun run failure).2]
  exact only_endRun hs run failure

namespace State

variable {s s' : State} {buffer place : Nat}

theorem placed_conclude {st : Store} (hs : st.Placed) (run : Run) :
    (conclude run [] st).Placed := by
  unfold conclude
  split <;> exact hs.endRun run _

theorem placed_deliver {st : Store} (hs : st.Placed) (run : Run) (id : Nat) (v : Value) :
    (deliver run [] st id v).Placed := by
  unfold deliver
  split_ifs
  · exact hs.endRun run none
  · exact placed_conclude hs run

theorem placed_execute (hs : s.Placed) : s.execute.Placed := by
  have hplaces := Control.places_execute s.machine hs.control hs.only
  have honly := Control.execute_only_places s.machine hs.store hs.control hs.only
  -- What is within reach stays as it was, and places that are filled stay filled.
  have hgrow : ∀ buffer filled, s.store.Holds buffer filled →
      (s.control.execute s.store s.machine).store.Holds buffer filled := by
    rw [Store.holds_congr (s.control.buffers_execute s.store s.machine)]
    exact fun _ _ => Control.holds_fill
  obtain ⟨st, m, control, run, waiting⟩ := s
  obtain rfl : waiting = [] := hs.waiting
  simp only [execute]
  generalize control.execute st m = e at hplaces honly hgrow
  cases e with
  | advance st' m' control' =>
    exact ⟨.grow honly.1 hgrow, honly.2.imp (Action.places_imp hgrow), hplaces, rfl⟩
  | deliver st' id v => exact placed_deliver (.grow honly.1 hgrow) run id v
  | idle st' => exact placed_conclude (.grow honly hgrow) run
  | fail st' e => exact (Store.Placed.grow honly hgrow).endRun run _
  | nest => exact hplaces.elim

theorem placed_charge (hs : s.Placed) : s.charge.Placed :=
  ⟨Store.only_modifyMachine hs.store _ _, hs.only, hs.control, hs.waiting⟩

theorem placed_bounce (hs : s.Placed) (target : Target) : (s.bounce target).Placed := by
  obtain ⟨st, m, control, run, waiting⟩ := s
  obtain rfl : waiting = [] := hs.waiting
  have hcounted : (st.modifyMachine run.machine fun m =>
      { m with bounces := m.bounces + 1 }).Placed := Store.only_modifyMachine hs.store _ _
  simp only [bounce]
  split
  · exact hcounted.endRun run _
  · split_ifs
    · exact hcounted.endRun run _
    · exact ⟨Store.only_modifyMachine hcounted _ _, hs.only, hs.control, rfl⟩

theorem placed_step (hs : s.Placed) : s.step.Placed := by
  unfold step
  split
  · exact placed_execute hs
  · dsimp only
    split_ifs
    · exact placed_bounce (placed_charge hs) _
    · exact placed_execute (placed_charge hs)

/-- The value that the next step puts in a place, unless it bounces. -/
def puts? (buffer place : Nat) (s : State) : Option Value :=
  if s.mustBounce then none else s.control.puts? buffer place

theorem buffers_of_bounce (hwaiting : s.waiting = []) {target : Target}
    (h : s.bounce target = .running s') : s'.store.buffers = s.store.buffers := by
  obtain ⟨st, m, control, run, waiting⟩ := s
  obtain rfl : waiting = [] := hwaiting
  simp only [bounce] at h
  split at h
  · cases h
  · split at h
    · cases h
    · cases h
      rfl

theorem pay_buffers (s : State) : s.pay.store.buffers = s.store.buffers := by
  unfold pay
  split_ifs <;> rfl

theorem placed_pay (hs : s.Placed) : s.pay.Placed := by
  unfold pay
  split_ifs
  · exact placed_charge hs
  · exact hs

/-- A step that neither bounces nor ends the run leads to the next one. -/
theorem advance_of_step (hs : s.Placed) (hb : s.mustBounce = false) (h : s.step = .running s') :
    s.control.execute s.pay.store s.pay.machine = .advance s'.store s'.machine s'.control := by
  rw [step_eq_execute hb] at h
  have hpaid := placed_pay hs
  have hplaces := Control.places_execute s.pay.machine hpaid.control hpaid.only
  have hnest : ∀ st node scope resumption,
      s.pay.control.execute s.pay.store s.pay.machine ≠ .nest st node scope resumption := by
    intro st node scope resumption he
    rw [he] at hplaces
    exact hplaces
  rw [← s.pay_eq.1]
  exact (advance_of_running hpaid.waiting hnest h).1

/-- A step changes what is in a place only by putting a value there. -/
theorem valueAt?_step (hs : s.Placed) (h : s.step = .running s') :
    s'.store.valueAt? buffer place =
      (s.puts? buffer place).or (s.store.valueAt? buffer place) := by
  unfold puts?
  split_ifs with hb
  · -- A bounce only counts, so that the step will be tried again.
    obtain ⟨target, -, hstep⟩ := step_eq_bounce hb
    have hbuffers := buffers_of_bounce (s := s.charge) hs.waiting (hstep.symm.trans h)
    exact congrFun (congrFun (Store.valueAt?_congr hbuffers) buffer) place
  · have heffect := advance_of_step hs (Bool.not_eq_true _ ▸ hb) h
    have hbuffers : s'.store.buffers = (s.control.fill s.pay.store).buffers := by
      rw [← s.control.buffers_execute s.pay.store s.pay.machine, heffect]
      rfl
    have hcontrol := (placed_pay hs).control
    rw [s.pay_eq.1] at hcontrol
    rw [Store.valueAt?_congr hbuffers, Control.valueAt?_fill hcontrol,
      Store.valueAt?_congr s.pay_buffers]

/-! ## What was put last -/

/-- The value that is put last in a place, in `n` steps. -/
def latest? (buffer place : Nat) : Nat → State → Option Value
  | 0, _ => none
  | n + 1, s =>
    match s.step with
    | .running s' => (s'.latest? buffer place n).or (s.puts? buffer place)
    | .finished _ _ => s.puts? buffer place

theorem latest?_succ_running (h : s.step = .running s') (n : Nat) :
    s.latest? buffer place (n + 1) = (s'.latest? buffer place n).or (s.puts? buffer place) := by
  simp only [latest?, h]

theorem latest?_add {a : Nat} (h : iterate step a s = .running s') (n : Nat) :
    s.latest? buffer place (a + n) =
      (s'.latest? buffer place n).or (s.latest? buffer place a) := by
  induction a generalizing s with
  | zero =>
    cases h
    rw [Nat.zero_add, latest?, Option.or_none]
  | succ a ih =>
    rw [Nat.succ_add]
    cases hstep : s.step with
    | running t =>
      rw [iterate_succ_running hstep] at h
      rw [latest?_succ_running hstep, latest?_succ_running hstep, ih h, Option.or_assoc]
    | finished st result =>
      rw [iterate_succ_finished hstep] at h
      cases h

theorem placed_of_step (hs : s.Placed) (h : s.step = .running s') : s'.Placed := by
  have hnext := placed_step hs
  rwa [h] at hnext

theorem placed_iterate (hs : s.Placed) {n : Nat} (h : iterate step n s = .running s') :
    s'.Placed :=
  iterate_keeps (fun _ _ => placed_of_step) hs h

/-- After some steps a place holds what was put there last, and before that what it had held. -/
theorem valueAt?_iterate (hs : s.Placed) {n : Nat} (h : iterate step n s = .running s') :
    s'.store.valueAt? buffer place =
      (s.latest? buffer place n).or (s.store.valueAt? buffer place) := by
  induction n generalizing s with
  | zero =>
    cases h
    rfl
  | succ n ih =>
    cases hstep : s.step with
    | running t =>
      rw [iterate_succ_running hstep] at h
      rw [ih (placed_of_step hs hstep) h, latest?_succ_running hstep, valueAt?_step hs hstep,
        Option.or_assoc]
    | finished st result =>
      rw [iterate_succ_finished hstep] at h
      cases h

end State

end Mycel
