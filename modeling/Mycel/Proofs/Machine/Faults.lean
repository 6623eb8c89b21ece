import Mycel.Proofs.Machine.Endings

/-!
# The errors of evaluations

Evaluating a program reports faults of its own: names, operands, callees, bounces and writes that
fail. Faults of scanning and parsing are not among them (`Error.Arises`), as long as no builtin
within reach brings in errors from elsewhere (`Action.Honest`): the errors of a host, and those of
sources that are parsed during the evaluation.
-/

namespace Mycel

/-- The builtins that bring in no errors from elsewhere. -/
def Action.Honest : Action → Prop
  | .fail | .inner _ | .host _ => False
  | _ => True

theorem Action.honest_provides (m : Nat) : Provides Action.Honest m where
  callcc _ _ := trivial
  host _ h := h.elim
  inner _ h := h.elim
  hosted h := h.elim

/-- An error that arises in an evaluation: it reports a fault, and not one of scanning or parsing.
-/
def Error.Arises (e : Error) : Prop :=
  ∃ (f : Fault) (pos : Pos), e = f.error pos ∧ f.code ∉ [Code.lex, Code.parse]

/-- If a step fails, the error arises in it. -/
def Effect.Honest : Effect → Prop
  | .fail _ e => e.Arises
  | _ => True

/-! ## Steps -/

theorem Operator.arises_apply {o : Operator} {a b : Value} {fault : Fault}
    (h : o.apply a b = .error fault) (pos : Pos) : (fault.error pos).Arises := by
  refine ⟨fault, pos, rfl, ?_⟩
  have hcases := apply_cases o a b
  rw [h] at hcases
  obtain (rfl | ⟨kind, shown, rfl⟩) | ha | hb | ⟨spelling, -, hother⟩ := hcases
  · decide
  · simp [Fault.code]
  · cases ha
  · cases hb
  · cases hother
    simp [Fault.code]

namespace Store

variable (st : Store) (m : Nat)

theorem honest_evaluate (scope : ScopeId) (k : Continuation) (node : Node) :
    (st.evaluate m scope k node).Honest := by
  cases node with
  | identifier pos name =>
    simp only [evaluate]
    split
    · trivial
    · exact ⟨.undefinedVariable name, pos, rfl, by simp [Fault.code]⟩
  | assign pos target value =>
    cases target with
    | identifier => trivial
    | _ => exact ⟨.assignTarget _, pos, rfl, by simp [Fault.code]⟩
  | missing => exact ⟨.missingNode, Pos.none, rfl, by simp [Fault.code]⟩
  | _ => trivial

theorem honest_apply (f : Value) (args : List Value) (k : Continuation) :
    (st.apply m f args k).Honest := by
  unfold apply
  split
  · trivial
  · exact ⟨.notCallable _ _, Pos.none, rfl, by simp [Fault.code]⟩

theorem honest_resume (v : Value) {k : Continuation} (hk : k.Only Action.Honest) :
    (st.resume m v k).Honest := by
  cases k with
  | assign pos name scope k =>
    simp only [resume]
    split
    · trivial
    · exact ⟨.undefinedVariable name, pos, rfl, by simp [Fault.code]⟩
  | right pos o left k =>
    simp only [resume]
    split
    · trivial
    · rename_i fault hfault
      exact Operator.arises_apply hfault pos
  | branch whenTrue whenFalse scope k =>
    simp only [resume]
    split_ifs <;> trivial
  | again f k => exact st.honest_apply m f [v] _
  | hosted number => exact hk.elim
  | _ => trivial

theorem honest_writeFor (primitive : String) (t : Text) (k : Continuation) :
    (st.writeFor m primitive t k).Honest := by
  unfold writeFor
  split
  · trivial
  · exact ⟨.writeFailed _ _, Pos.none, rfl, by simp [Fault.code]⟩

theorem honest_perform (args : List Value) (k : Continuation) {action : Action}
    (ha : action.Only Action.Honest) : (st.perform m args k action).Honest := by
  cases action with
  | print => exact st.honest_writeFor m _ _ k
  | println => exact st.honest_writeFor m _ _ k
  | apply => exact st.honest_apply m _ _ _
  | twice => exact st.honest_apply m _ _ _
  | callcc => exact honest_apply _ m _ _ _
  | fail | inner | host => exact ha.elim
  | _ => trivial

end Store

theorem Control.honest_execute (st : Store) (m : Nat) {c : Control} (hc : c.Only Action.Honest) :
    (c.execute st m).Honest := by
  cases c with
  | evaluate node scope k => exact st.honest_evaluate m scope k node
  | sequence rest scope last k => cases rest <;> trivial
  | arguments pos rest scope callee buffer filled k =>
    cases rest with
    | cons node rest => trivial
    | nil =>
      simp only [Control.execute]
      split
      · trivial
      · exact ⟨.notCallable _ _, pos, rfl, by simp [Fault.code]⟩
  | bindings rest body scope k =>
    cases rest with
    | nil => trivial
    | cons b rest =>
      simp only [Control.execute]
      split_ifs <;> trivial
  | enter closure args k => trivial
  | resume k v => exact st.honest_resume m v hc.1
  | perform action args k => exact st.honest_perform m args k hc.1
  | report number result => exact hc.1.elim

/-! ## Runs -/

/-- A run that has failed has done so with an error that arose in it. -/
def Progress.Honest : Progress → Prop
  | .running _ => True
  | .finished _ result => ∀ e, result = .error e → e.Arises

namespace State

theorem honest_fail (run : Run) (waiting : List Suspended) (st : Store) {e : Error}
    (he : e.Arises) : (fail run waiting st e).Honest := by
  induction waiting generalizing run st with
  | nil =>
    intro e' he'
    cases he'
    exact he
  | cons s waiting ih =>
    obtain ⟨outer, resumption⟩ := s
    cases resumption with
    | value k => exact ih _ _
    | host number => trivial

theorem honest_succeed (run : Run) (waiting : List Suspended) (st : Store) (v : Value) :
    (succeed run waiting st v).Honest := by
  cases waiting with
  | nil =>
    intro e he
    cases he
  | cons s waiting =>
    obtain ⟨outer, resumption⟩ := s
    cases resumption <;> trivial

theorem honest_conclude (run : Run) (waiting : List Suspended) (st : Store) :
    (conclude run waiting st).Honest := by
  unfold conclude
  split
  · exact honest_succeed _ _ _ _
  · exact honest_fail _ _ _ ⟨.stalled, Pos.none, rfl, by decide⟩

theorem honest_execute {s : State} (hs : s.control.Only Action.Honest) : s.execute.Honest := by
  obtain ⟨st, machine, control, run, waiting⟩ := s
  have heffect := Control.honest_execute st machine hs
  simp only [execute]
  generalize control.execute st machine = e at heffect ⊢
  cases e with
  | advance st' machine' control' => trivial
  | deliver st' id v =>
    simp only [after, deliver]
    split_ifs
    · exact honest_succeed _ _ _ _
    · exact honest_conclude _ _ _
  | idle st' => exact honest_conclude _ _ _
  | fail st' e => exact honest_fail _ _ _ heffect
  | nest st' node scope resumption => trivial

theorem honest_bounce (s : State) (target : Target) : (s.bounce target).Honest := by
  simp only [bounce]
  split
  · exact honest_fail _ _ _ ⟨.canceled _ _, Pos.none, rfl, by simp [Fault.code]⟩
  · split_ifs
    · exact honest_fail _ _ _ ⟨.bounceLimit _, Pos.none, rfl, by simp [Fault.code]⟩
    · trivial

theorem honest_step {s : State} (hs : s.control.Only Action.Honest) : s.step.Honest := by
  unfold step
  split
  · exact honest_execute hs
  · dsimp only
    split_ifs
    · exact honest_bounce _ _
    · exact honest_execute (s := s.charge) hs

end State

namespace Store

variable {st st' : Store} {m : Nat} {node : Node} {scope : ScopeId}

/-- A run among honest builtins fails only with an error that arises in it. -/
theorem runWithin_arises (hs : st.Only Action.Honest) {n : Nat} {e : Error}
    (h : st.runWithin n m node scope = some (st', .error e)) : e.Arises := by
  have hkeeps : ∀ s : State, s.Only Action.Honest ∧ Progress.Honest (.running s) →
      s.step.Only Action.Honest ∧ s.step.Honest := fun s hs =>
    ⟨State.only_step (Action.honest_provides s.machine) hs.1, State.honest_step hs.1.control⟩
  exact (State.runWithin_keeps (P := fun q => q.Only Action.Honest ∧ q.Honest) hkeeps
    ⟨only_start hs m node scope, trivial⟩ h).2 e rfl

end Store

end Mycel
