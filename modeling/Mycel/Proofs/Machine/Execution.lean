import Mycel.Machine.Step

/-!
# Sequences of steps

`State.iterate` takes a number of steps of one kind, and `State.record` lists what is noted on the
way. For the steps that are noted, `Label` says what can be told apart: the run, whether the step
had a guard to pass, and the builtin that it called. `State.trace` is the record of a machine with
a budget, where a bounce does nothing and is not noted.
-/

namespace Mycel

/-- The builtin that is called next, and its arguments. -/
def Control.call? : Control → Option (Action × List Value)
  | .perform action args _ => some (action, args)
  | _ => none

/-- A step that was done. -/
structure Label where
  /-- The run that it was done for. -/
  run : Nat
  /-- Whether it had to pass a guard. -/
  guarded : Bool
  /-- The builtin that was called, and its arguments. -/
  call : Option (Action × List Value)

namespace State

/-- Whether the next step has to pass a guard. -/
def isGuarded (s : State) : Bool := s.control.target?.isSome

/-- The next step. -/
def label (s : State) : Label := ⟨s.run.id, s.isGuarded, s.control.call?⟩

/-- Whether the guard of the next step has it bounce. -/
def mustBounce (s : State) : Bool := s.isGuarded && s.charge.isSpent

/-- Takes `n` steps, or fewer if they come to an end. -/
def iterate (f : State → Progress) : Nat → State → Progress
  | 0, s => .running s
  | n + 1, s =>
    match f s with
    | .running s => iterate f n s
    | .finished st result => .finished st result

/-- What is noted on the way of `n` steps. -/
def record (f : State → Progress) (note : State → List Label) : Nat → State → List Label
  | 0, _ => []
  | n + 1, s =>
    match f s with
    | .running s' => note s ++ record f note n s'
    | .finished _ _ => note s

/-- The steps that are done when a machine takes `n` steps. -/
def trace (n : Nat) (s : State) : List Label :=
  record step (fun s => if s.mustBounce then [] else [s.label]) n s

/-! ## Taking one step more -/

variable {f : State → Progress} {note : State → List Label} {s s' : State} {st : Store}
  {result : Except Error Value}

theorem iterate_succ_running (h : f s = .running s') (n : Nat) :
    iterate f (n + 1) s = iterate f n s' := by
  simp only [iterate, h]

theorem iterate_succ_finished (h : f s = .finished st result) (n : Nat) :
    iterate f (n + 1) s = .finished st result := by
  simp only [iterate, h]

theorem record_succ_running (h : f s = .running s') (n : Nat) :
    record f note (n + 1) s = note s ++ record f note n s' := by
  simp only [record, h]

theorem record_succ_finished (h : f s = .finished st result) (n : Nat) :
    record f note (n + 1) s = note s := by
  simp only [record, h]

theorem iterate_add {a : Nat} (h : iterate f a s = .running s') (b : Nat) :
    iterate f (a + b) s = iterate f b s' := by
  induction a generalizing s with
  | zero =>
    cases h
    rw [Nat.zero_add]
  | succ a ih =>
    rw [Nat.succ_add]
    cases hf : f s with
    | running t =>
      rw [iterate_succ_running hf] at h ⊢
      exact ih h
    | finished st result =>
      rw [iterate_succ_finished hf] at h
      cases h

theorem record_add {a : Nat} (h : iterate f a s = .running s') (b : Nat) :
    record f note (a + b) s = record f note a s ++ record f note b s' := by
  induction a generalizing s with
  | zero =>
    cases h
    rw [Nat.zero_add]
    rfl
  | succ a ih =>
    rw [Nat.succ_add]
    cases hf : f s with
    | running t =>
      rw [iterate_succ_running hf] at h
      rw [record_succ_running hf, record_succ_running hf, ih h, List.append_assoc]
    | finished st result =>
      rw [iterate_succ_finished hf] at h
      cases h

theorem iterate_next {s'' : State} {n : Nat} (h : iterate f n s = .running s')
    (hnext : f s' = .running s'') : iterate f (n + 1) s = .running s'' := by
  rw [iterate_add h, iterate_succ_running hnext]
  rfl

/-- What every step keeps holds for as long as the steps go on. -/
theorem iterate_keeps {P : State → Prop} (hstep : ∀ s s', P s → f s = .running s' → P s')
    (hs : P s) {n : Nat} (h : iterate f n s = .running s') : P s' := by
  induction n generalizing s with
  | zero =>
    cases h
    exact hs
  | succ n ih =>
    cases hf : f s with
    | running t =>
      rw [iterate_succ_running hf] at h
      exact ih (hstep s t hs hf) h
    | finished st result =>
      rw [iterate_succ_finished hf] at h
      cases h

theorem iterate_last {n : Nat} (h : iterate f n s = .running s')
    (hlast : f s' = .finished st result) : iterate f (n + 1) s = .finished st result := by
  rw [iterate_add h, iterate_succ_finished hlast]

theorem record_last {n : Nat} (h : iterate f n s = .running s')
    (hlast : f s' = .finished st result) :
    record f note (n + 1) s = record f note n s ++ note s' := by
  rw [record_add h, record_succ_finished hlast]

theorem iterate_add_finished {a : Nat} (h : iterate f a s = .finished st result) (b : Nat) :
    iterate f (a + b) s = .finished st result := by
  induction a generalizing s with
  | zero => cases h
  | succ a ih =>
    rw [Nat.succ_add]
    cases hf : f s with
    | running t =>
      rw [iterate_succ_running hf] at h ⊢
      exact ih h
    | finished st' result' =>
      rw [iterate_succ_finished hf] at h ⊢
      exact h

/-- Whoever still runs after `a` steps takes more of them to the end. -/
theorem lt_of_iterate_finished {a b : Nat} (ha : iterate f a s = .running s')
    (hb : iterate f b s = .finished st result) : a < b := by
  refine Nat.lt_of_not_le fun hle => ?_
  obtain ⟨d, rfl⟩ := Nat.exists_eq_add_of_le hle
  rw [iterate_add_finished hb] at ha
  cases ha

/-- A run ends with one result, however many steps it is given. -/
theorem iterate_finished_unique {a b : Nat} {st' : Store} {result' : Except Error Value}
    (ha : iterate f a s = .finished st result) (hb : iterate f b s = .finished st' result') :
    st = st' ∧ result = result' := by
  have h := (iterate_add_finished ha b).symm.trans
    ((congrArg (iterate f · s) (Nat.add_comm a b)).trans (iterate_add_finished hb a))
  cases h
  exact ⟨rfl, rfl⟩

theorem runWithin_eq_some_iff {n : Nat} :
    s.runWithin n = some (st, result) ↔ iterate step n s = .finished st result := by
  induction n generalizing s with
  | zero => simp [runWithin, iterate]
  | succ n ih =>
    cases h : s.step with
    | running t =>
      rw [iterate_succ_running h, ← ih]
      simp only [runWithin, h]
    | finished st' result' =>
      rw [iterate_succ_finished h]
      simp only [runWithin, h, Option.some.injEq, Prod.mk.injEq, Progress.finished.injEq]

end State

end Mycel
