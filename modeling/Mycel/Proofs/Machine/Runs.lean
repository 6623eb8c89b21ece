import Mycel.Proofs.Machine.Erasure

/-!
# Beginning and ending runs

A step may begin a run inside the current one, and it may end the current one and some of those
around it. `Place.Unwinds` says what the latter comes to, one run at a time; `State.execute_cases`
says that these are the only ways in which a step has to do with runs. What holds of a place and
outlives the end of a run can then be carried along by induction on `Unwinds`.
-/

namespace Mycel

/-- A state without what it does next. -/
structure Place where
  store : Store
  machine : Nat
  run : Run
  waiting : List Suspended

def State.place (s : State) : Place := ⟨s.store, s.machine, s.run, s.waiting⟩

namespace Place

/-- Runs end, and results are kept for runs that wait. -/
inductive Unwinds : Place → Place → Prop
  | refl (x : Place) : Unwinds x x
  | keep {st : Store} {machine : Nat} {run : Run} {waiting : List Suspended} {y : Place} (id : Nat)
      (v : Value) (h : Unwinds ⟨st, machine, run, waiting.map (·.keep id v)⟩ y) :
      Unwinds ⟨st, machine, run, waiting⟩ y
  | pop {st : Store} {machine : Nat} {run : Run} {s : Suspended} {waiting : List Suspended}
      {y : Place} (failure : Option Error)
      (h : Unwinds ⟨st.endRun run failure, run.machine, s.run, waiting⟩ y) :
      Unwinds ⟨st, machine, run, s :: waiting⟩ y

/-- What runs end with: the work goes on in one of them, or the outermost one ends too. -/
def Reaches (x : Place) : Progress → Prop
  | .running s => x.Unwinds s.place
  | .finished st _ => ∃ y failure, x.Unwinds y ∧ y.waiting = [] ∧ st = y.store.endRun y.run failure

variable {st : Store} {machine : Nat} {run : Run} {waiting : List Suspended}

theorem Reaches.pop {s : Suspended} (failure : Option Error) {q : Progress}
    (h : Reaches ⟨st.endRun run failure, run.machine, s.run, waiting⟩ q) :
    Reaches ⟨st, machine, run, s :: waiting⟩ q := by
  cases q with
  | running s' => exact Unwinds.pop failure h
  | finished st' result =>
    obtain ⟨y, f, hy, hw, hst⟩ := h
    exact ⟨y, f, .pop failure hy, hw, hst⟩

theorem Reaches.keep (id : Nat) (v : Value) {q : Progress}
    (h : Reaches ⟨st, machine, run, waiting.map (·.keep id v)⟩ q) :
    Reaches ⟨st, machine, run, waiting⟩ q := by
  cases q with
  | running s' => exact Unwinds.keep id v h
  | finished st' result =>
    obtain ⟨y, f, hy, hw, hst⟩ := h
    exact ⟨y, f, .keep id v hy, hw, hst⟩

theorem reaches_fail (e : Error) :
    Reaches ⟨st, machine, run, waiting⟩ (State.fail run waiting st e) := by
  induction waiting generalizing run st machine with
  | nil => exact ⟨_, some e, .refl _, rfl, rfl⟩
  | cons s waiting ih =>
    obtain ⟨outer, resumption⟩ := s
    cases resumption with
    | value k => exact Reaches.pop (some e) ih
    | host number => exact Unwinds.pop (some e) (.refl _)

theorem reaches_succeed (v : Value) :
    Reaches ⟨st, machine, run, waiting⟩ (State.succeed run waiting st v) := by
  cases waiting with
  | nil => exact ⟨_, none, .refl _, rfl, rfl⟩
  | cons s waiting =>
    obtain ⟨outer, resumption⟩ := s
    cases resumption <;> exact Unwinds.pop none (.refl _)

theorem reaches_conclude :
    Reaches ⟨st, machine, run, waiting⟩ (State.conclude run waiting st) := by
  unfold State.conclude
  split
  · exact reaches_succeed _
  · exact reaches_fail _

theorem reaches_deliver (id : Nat) (v : Value) :
    Reaches ⟨st, machine, run, waiting⟩ (State.deliver run waiting st id v) := by
  unfold State.deliver
  split_ifs
  · exact reaches_succeed v
  · exact Reaches.keep id v reaches_conclude

end Place

/-- The machine that goes on after an effect, where `m` has been at work. -/
def Effect.machine (m : Nat) : Effect → Nat
  | .advance _ machine _ => machine
  | _ => m

/-- A step begins a run, or ends some. -/
theorem State.execute_cases (s : State) :
    (∃ st node scope resumption, st.machines = s.store.machines ∧ st.runs = s.store.runs ∧
      s.control.execute s.store s.machine = .nest st node scope resumption ∧
      s.execute = .running ⟨(st.beginRun s.machine).1, s.machine,
        .evaluate node scope (.final (st.beginRun s.machine).2.id), (st.beginRun s.machine).2,
        ⟨s.run, resumption⟩ :: s.waiting⟩) ∨
    Place.Reaches ⟨(s.control.execute s.store s.machine).store,
      (s.control.execute s.store s.machine).machine s.machine, s.run, s.waiting⟩ s.execute := by
  obtain ⟨st, machine, control, run, waiting⟩ := s
  have hm := control.execute_machines st machine
  have hr := control.execute_runs st machine
  simp only [execute]
  generalize control.execute st machine = e at hm hr ⊢
  cases e with
  | advance st' machine' control' => exact Or.inr (.refl _)
  | deliver st' id v => exact Or.inr (Place.reaches_deliver id v)
  | idle st' => exact Or.inr Place.reaches_conclude
  | fail st' e => exact Or.inr (Place.reaches_fail e)
  | nest st' node scope resumption =>
    exact Or.inl ⟨st', node, scope, resumption, hm, hr, rfl, rfl⟩

/-- Where no run waits and none begins, everything but a next step ends the run. -/
theorem State.advance_of_running {s s' : State} (hw : s.waiting = [])
    (hnest : ∀ st node scope resumption,
      s.control.execute s.store s.machine ≠ .nest st node scope resumption)
    (h : s.execute = .running s') :
    s.control.execute s.store s.machine = .advance s'.store s'.machine s'.control ∧
      s'.run = s.run ∧ s'.waiting = [] := by
  obtain ⟨st, machine, control, run, waiting⟩ := s
  subst hw
  simp only [execute] at h hnest ⊢
  generalize control.execute st machine = e at hnest h ⊢
  cases e with
  | advance st' machine' control' =>
    cases h
    exact ⟨rfl, rfl, rfl⟩
  | deliver st' id v =>
    simp only [after, deliver, conclude, succeed, fail, List.map_nil] at h
    split at h
    · cases h
    · split at h <;> cases h
  | idle st' =>
    simp only [after, conclude, succeed, fail] at h
    split at h <;> cases h
  | fail st' e => cases h
  | nest st' node scope resumption => exact absurd rfl (hnest st' node scope resumption)

end Mycel
