import Mycel.Proofs.Machine.Budget
import Mycel.Session

/-!
# Evaluations of a session

A session evaluates a source on a new machine. That comes to an error of the parser, to the end of a
run, or to a run that goes beyond the horizon (`Session.eval_cases`). What every evaluation keeps
holds after any number of them (`Session.evalAll_keeps`).
-/

namespace Mycel

/-- The state in which a session starts to evaluate a program. -/
def Session.start (s : Session) (o : Override) (p : Program) : State :=
  let (store, machine) := s.store.addMachine (s.settings.effective o)
  store.start machine p.toNode s.globals

theorem Store.run_of_runWithin {st st' : Store} {m : Nat} {node : Node} {scope : ScopeId}
    {result : Except Error Value} (h : st.runWithin horizon m node scope = some (st', result)) :
    (st.run m node scope).1 = st' := by
  unfold Store.run
  rw [h]

/-- An evaluation that ends leaves the session with the store of its run. -/
theorem Session.eval_of_runWithin {s : Session} {o : Override} {source : Text} {p : Program}
    (hparse : Program.parse source = .ok p) {st : Store} {result : Except Error Value}
    (hrun : (s.start o p).runWithin horizon = some (st, result)) :
    (s.eval o source).1 = { s with store := st } := by
  rw [Session.eval, Store.evaluateSource, hparse]
  exact congrArg (Session.mk · s.globals s.settings) (Store.run_of_runWithin hrun)

/-- A run that comes to no end leaves nothing behind. -/
theorem Store.run_cases (st : Store) (m : Nat) (node : Node) (scope : ScopeId) :
    (∃ st' result, st.runWithin horizon m node scope = some (st', result) ∧
      (st.run m node scope).1 = st' ∧ (st.run m node scope).2.result = result) ∨
    ((st.run m node scope).1 = {} ∧
      (st.run m node scope).2.result = .error (Fault.stalled.error Pos.none)) := by
  unfold Store.run
  cases st.runWithin horizon m node scope with
  | some x => exact .inl ⟨x.1, x.2, rfl, rfl, rfl⟩
  | none => exact .inr ⟨rfl, rfl⟩

/-- A machine more gives access to no builtins. -/
theorem Store.Only.addMachine {p : Action → Prop} {st : Store} (h : st.Only p)
    (settings : Settings) : (st.addMachine settings).1.Only p :=
  ⟨h.world, h.buffers⟩

namespace Session

/-- What an evaluation comes to: an error of parsing, the end of a run, or no end in sight. -/
theorem eval_cases (s : Session) (o : Override) (source : Text) :
    (∃ e, Program.parse source = .error e ∧ (s.eval o source).1 = s ∧
      (s.eval o source).2.result = .error e) ∨
    ∃ p, Program.parse source = .ok p ∧
      ((∃ n st result, State.iterate State.step n (s.start o p) = .finished st result ∧
        (s.eval o source).1 = { s with store := st } ∧ (s.eval o source).2.result = result) ∨
      ((s.eval o source).1 = { s with store := {} } ∧
        (s.eval o source).2.result = .error (Fault.stalled.error Pos.none))) := by
  cases hparse : Program.parse source with
  | error e =>
    have heval : s.eval o source = (s, { result := .error e }) := by
      rw [eval, Store.evaluateSource, hparse]
      rfl
    exact .inl ⟨e, rfl, by rw [heval], by rw [heval]⟩
  | ok p =>
    let run := s.store.runProgram (s.settings.effective o) s.globals p
    have heval : s.eval o source = ({ s with store := run.1 }, run.2) := by
      rw [eval, Store.evaluateSource, hparse]
      rfl
    rw [heval]
    refine .inr ⟨p, rfl, ?_⟩
    obtain ⟨st, result, hend, hstore, hresult⟩ | ⟨hstore, hresult⟩ :=
      Store.run_cases (s.store.addMachine (s.settings.effective o)).1
        (s.store.addMachine (s.settings.effective o)).2 p.toNode s.globals
    · exact .inl ⟨horizon, st, result, State.runWithin_eq_some_iff.1 hend,
        congrArg (Session.mk · s.globals s.settings) hstore, hresult⟩
    · exact .inr ⟨congrArg (Session.mk · s.globals s.settings) hstore, hresult⟩

/-- The session after some inputs. -/
def evalAll (s : Session) : List (Override × Text) → Session
  | [] => s
  | (o, source) :: inputs => evalAll (s.eval o source).1 inputs

theorem evalAll_keeps {P : Session → Prop} (heval : ∀ s o source, P s → P (s.eval o source).1)
    {s : Session} (hs : P s) (inputs : List (Override × Text)) : P (s.evalAll inputs) := by
  induction inputs generalizing s with
  | nil => exact hs
  | cons i inputs ih => exact ih (heval s i.1 i.2 hs)

theorem settings_evalAll (s : Session) (inputs : List (Override × Text)) :
    (s.evalAll inputs).settings = s.settings :=
  evalAll_keeps (P := fun s' => s'.settings = s.settings) (fun _ _ _ h => h) rfl inputs

end Session

end Mycel
