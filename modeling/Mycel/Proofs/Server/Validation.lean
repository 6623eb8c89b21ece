import Mycel.Proofs.Machine.Faults
import Mycel.Proofs.Server.Isolation
import Mycel.Proofs.Session.Evaluation
import Mycel.Proofs.Syntax.Acceptance

/-!
# Validating and evaluating

A submission is evaluated in a session of its own (`Server.evaluation`). A source that is no program
has the error of the parser there, before anything is written; the errors of a program arise in its
evaluation (`Server.arises_of_evaluation`). Only the former are errors of scanning or parsing. So a
server finds a source invalid exactly if it would not evaluate it for such an error, and says the
same about it (`Server.validation_agrees`).
-/

namespace Mycel

/-! ## Codes -/

theorem Fault.code_mem_all (f : Fault) : f.code ∈ Code.all := by
  cases f <;> simp [code, Code.all]

theorem Fault.codeName_error (f : Fault) (pos : Pos) : (f.error pos).codeName = f.code.name := by
  unfold Fault.error
  split <;> rfl

theorem Code.name_injOn : ∀ c ∈ Code.all, ∀ d ∈ Code.all, c.name = d.name → c = d := by
  decide

/-- The names of the errors of sources that are no programs. -/
def Code.ofSources : List Text := [Code.lex.name, Code.parse.name]

theorem Error.Arises.codeName {e : Error} (h : e.Arises) : e.codeName ∉ Code.ofSources := by
  obtain ⟨f, pos, rfl, hcode⟩ := h
  rw [Fault.codeName_error]
  intro hname
  simp only [Code.ofSources, List.mem_cons, List.not_mem_nil, or_false] at hname hcode
  rcases hname with hname | hname
  · exact hcode (.inl (Code.name_injOn _ f.code_mem_all _ (by decide) hname))
  · exact hcode (.inr (Code.name_injOn _ f.code_mem_all _ (by decide) hname))

theorem Program.codeName_of_parse_error {source : Text} {e : Error}
    (h : Program.parse source = .error e) : e.codeName ∈ Code.ofSources := by
  unfold Error.codeName
  rcases Program.code_of_parse_error h with hcode | hcode <;> rw [hcode] <;> decide

/-! ## Sessions of submissions -/

/-- The error of a run that ends, or of one that does not. -/
theorem Store.run_error {st : Store} {m : Nat} {node : Node} {scope : ScopeId} {e : Error}
    (h : (st.run m node scope).2.result = .error e) :
    (∃ st', st.runWithin horizon m node scope = some (st', .error e)) ∨
      e = Fault.stalled.error Pos.none := by
  obtain ⟨st', result, hrun, -, hresult⟩ | ⟨-, hresult⟩ := st.run_cases m node scope
  · obtain rfl : result = .error e := hresult.symm.trans h
    exact .inl ⟨st', hrun⟩
  · exact .inr (Except.error.inj (h.symm.trans hresult))

namespace HostValue

variable {p : Action → Prop} {w : World}

theorem only_toValue (hw : w.Only p) (hp : p .inert) (d : HostValue) :
    (d.toValue w).1.Only p ∧ (d.toValue w).2.Only p := by
  cases d with
  | closure name params =>
    refine ⟨⟨Heap.only_root hw.heap, hw.host⟩, ?_⟩
    simp [toValue, Value.Only]
  | builtin name =>
    refine ⟨⟨hw.heap, hw.host⟩, ?_⟩
    simpa [toValue, Value.Only, Action.Only] using hp
  | _ => exact ⟨hw, by simp [toValue, Value.Only]⟩

theorem only_defineAll (hp : p .inert) (scope : ScopeId) (data : List (Text × HostValue))
    (hw : w.Only p) : (defineAll scope w data).Only p := by
  induction data generalizing w with
  | nil => exact hw
  | cons d data ih =>
    obtain ⟨hw', hv⟩ := only_toValue hw hp d.2
    exact ih (World.only_define hw' scope d.1 hv)

theorem output_defineAll (scope : ScopeId) (data : List (Text × HostValue)) :
    (defineAll scope w data).output = w.output := by
  induction data generalizing w with
  | nil => rfl
  | cons d data ih =>
    obtain ⟨name, d⟩ := d
    refine ih.trans ?_
    cases d <;> rfl

end HostValue

namespace Server

/-- The session for a submission, with the settings of the server. -/
def interpreter (o : ServerOptions) (q : Submission) : Session :=
  { session o q with settings := o.settings }

/-- What a submission wants to be different. -/
def override (q : Submission) : Override :=
  { stackBudget := if q.stackBudget > 0 then some q.stackBudget else none }

/-- The evaluation of the source of a submission. -/
def evaluation (o : ServerOptions) (q : Submission) : Session × Evaluation :=
  (interpreter o q).eval (override q) q.source

theorem run_eq_evaluation (o : ServerOptions) (q : Submission) :
    run o.withDefaults q (Program.parse q.source) =
      ((evaluation o q).1.store.world, (evaluation o q).2) := rfl

theorem only_interpreter (o : ServerOptions) (q : Submission) :
    (interpreter o q).store.Only Action.Honest := by
  refine ⟨HostValue.only_defineAll trivial _ q.data ?_, fun vs hvs =>
    absurd hvs (Array.not_mem_empty vs)⟩
  refine World.only_globals ⟨?_, fun _ h => h.elim⟩ ⟨trivial, trivial⟩
  simp [Heap.Only, Heap.empty]

theorem output_interpreter (o : ServerOptions) (q : Submission) :
    (interpreter o q).store.world.output = {} :=
  HostValue.output_defineAll _ q.data

/-- A program that is submitted fails only with an error that arises in its evaluation, whatever
the data are and however long it runs. -/
theorem arises_of_runWithin (o : ServerOptions) (q : Submission) (v : Override) {p : Program}
    {n : Nat} {st : Store} {e : Error}
    (h : ((interpreter o q).start v p).runWithin n = some (st, .error e)) : e.Arises := by
  exact Store.runWithin_arises ((only_interpreter o q).addMachine _) h

/-- A source that is no program has the error of the parser, and writes nothing. -/
theorem evaluation_of_parse_error (o : ServerOptions) {q : Submission} {e : Error}
    (hparse : Program.parse q.source = .error e) :
    (evaluation o q).2.result = .error e ∧ (evaluation o q).1.store.world.output.text = [] := by
  unfold evaluation Session.eval Store.evaluateSource
  rw [hparse]
  refine ⟨rfl, ?_⟩
  show (interpreter o q).store.world.output.text = []
  rw [output_interpreter]
  rfl

/-- The error of a program arises in its evaluation. -/
theorem arises_of_evaluation {o : ServerOptions} {q : Submission} {p : Program}
    (hparse : Program.parse q.source = .ok p) {e : Error}
    (h : (evaluation o q).2.result = .error e) : e.Arises := by
  unfold evaluation Session.eval Store.evaluateSource at h
  rw [hparse] at h
  rcases Store.run_error h with ⟨st, hrun⟩ | rfl
  · exact arises_of_runWithin o q (override q) hrun
  · exact ⟨.stalled, Pos.none, rfl, by decide⟩

end Server

/-! ## Submissions -/

/-- A request that submits something to an endpoint. -/
structure Request.Submits (o : ServerOptions) (e : Endpoint) (q : Submission) (r : Request) :
    Prop where
  size : r.body.length ≤ o.withDefaults.bodyLimit
  method : r.method = bytes "POST"
  endpoint : Endpoint.at? r.path = some e
  submission : Submission.ofRequest? o.readOther r = some q

/-- What a server lets through: a source with something in it, and a budget in range. -/
structure Submission.Admissible (q : Submission) : Prop where
  source : q.source.isBlank = false
  least : 0 ≤ q.stackBudget
  greatest : q.stackBudget ≤ 10000

theorem Submission.Admissible.refusal? {q : Submission} (hq : q.Admissible) :
    Server.refusal? q = none := by
  have hbudget : ¬ (q.stackBudget < 0 ∨ q.stackBudget > Settings.maxBudget) := by
    rintro (h | h)
    · exact absurd hq.least (Int.not_le.2 h)
    · exact absurd hq.greatest (Int.not_le.2 h)
  unfold Server.refusal?
  rw [hq.source, if_neg Bool.false_ne_true, if_neg hbudget]

namespace Server

variable {o : ServerOptions} {s t : Server} {q : Submission} {r : Request}

theorem Of.handle_submits (hs : s.Of o) {e : Endpoint} (hr : r.Submits o e q)
    (he : e.methods.contains (bytes "POST") = true) : s.handle r = s.serve r e := by
  have hsize : ¬ r.body.length > s.options.bodyLimit := by
    rw [hs.options]
    exact Int.not_lt.2 hr.size
  have hknown : (!Request.methods.contains r.method) = false := by
    rw [hr.method]
    decide
  have hhead : r.method ≠ bytes "HEAD" := by
    rw [hr.method]
    decide
  have hroute : s.route r = s.serve r e := by
    unfold Server.route
    rw [if_neg hsize, hknown, if_neg Bool.false_ne_true, hr.endpoint]
    dsimp only
    rw [hr.method, if_pos he]
  unfold Server.handle
  dsimp only
  rw [if_neg hhead, hroute]

theorem Of.handle_evaluate (hs : s.Of o) (hr : r.Submits o .evaluate q) :
    s.handle r = s.evaluate q := by
  rw [hs.handle_submits hr (by decide)]
  simp only [Server.serve, hs.readOther, hr.submission]

/-- The answer to a submission that is evaluated. -/
theorem Of.answer_evaluate (hs : s.Of o) (hr : r.Submits o .evaluate q) (hq : q.Admissible) :
    (s.handle r).2.1 =
      evaluationResponse (evaluation o q).1.store.world.output.text (evaluation o q).2 := by
  rw [hs.handle_evaluate hr, hs.evaluate_eq hq.refusal? (run_eq_evaluation o q)]

/-- The answer to a submission that is validated. -/
theorem Of.answer_validate (hs : s.Of o) (hr : r.Submits o .validate q) :
    (s.handle r).2.1 = { answer :=
      match Program.parse q.source with
      | .ok p => .valid p.body.length
      | .error e => .invalid (.ofError e) } := by
  rw [hs.handle_submits hr (by decide)]
  simp only [Server.serve, hs.readOther, hr.submission]
  exact hs.validate_eq q

/-- The error of a submission that has one, in the answer. -/
theorem evaluationResponse_of_error {output : Text} {e : Evaluation} {err : Error}
    (h : e.result = .error err) :
    evaluationResponse output e = ⟨400, .failed { ErrorReport.ofError err with output }⟩ := by
  simp only [evaluationResponse, h]

theorem error_of_status {output : Text} {e : Evaluation}
    (h : (evaluationResponse output e).status = 400) : ∃ err, e.result = .error err := by
  unfold evaluationResponse at h
  split at h
  · rename_i err herr
    exact ⟨err, herr⟩
  · split at h
    · split_ifs at h
      all_goals cases h
    · cases h

/-- Validating and evaluating agree on what is a program. Whatever two servers with the same
options have been asked before, a source is found invalid by the one exactly if the other answers
its evaluation with an error of scanning or parsing; and then both say the same about it, and
nothing was written. A valid source has no such error in any run, however long it is and whatever
the data are. -/
theorem validation_agrees {xs ys : List (Request × Response)} (hs : (new o).Serves xs s)
    (ht : (new o).Serves ys t) (hr : r.Submits o .validate q) {q' : Submission} {r' : Request}
    (hr' : r'.Submits o .evaluate q') (hq' : q'.Admissible) (hsource : q'.source = q.source) :
    ((∃ report, (s.handle r).2.1 = ⟨200, .invalid report⟩) ↔
      ∃ report, (t.handle r').2.1 = ⟨400, .failed report⟩ ∧ report.code ∈ Code.ofSources) ∧
    (∀ report, (s.handle r).2.1 = ⟨200, .invalid report⟩ →
      (t.handle r').2.1 = ⟨400, .failed report⟩ ∧ report.output = []) ∧
    ∀ count, (s.handle r).2.1 = ⟨200, .valid count⟩ → ∃ p, Program.parse q.source = .ok p ∧
      ∀ d v n st e, ((interpreter o d).start v p).runWithin n = some (st, .error e) →
        e.codeName ∉ Code.ofSources := by
  rw [((of_new o).serves hs).answer_validate hr, ((of_new o).serves ht).answer_evaluate hr' hq']
  cases hparse : Program.parse q.source with
  | error e =>
    obtain ⟨hresult, hsilent⟩ := evaluation_of_parse_error o (hsource.symm ▸ hparse)
    rw [evaluationResponse_of_error hresult, hsilent]
    refine ⟨⟨fun _ => ?_, fun _ => ⟨_, rfl⟩⟩, fun report h => ?_, fun count h => ?_⟩
    · exact ⟨_, rfl, Program.codeName_of_parse_error hparse⟩
    · cases h
      exact ⟨rfl, rfl⟩
    · cases h
  | ok p =>
    refine ⟨⟨?_, ?_⟩, fun report h => ?_, fun count _ => ⟨p, rfl, fun d v n st e h => ?_⟩⟩
    · rintro ⟨report, h⟩
      cases h
    · rintro ⟨report, h, hcode⟩
      obtain ⟨e, he⟩ := error_of_status (congrArg Response.status h)
      rw [evaluationResponse_of_error he] at h
      cases h
      exact absurd hcode (arises_of_evaluation (hsource.symm ▸ hparse) he).codeName
    · cases h
    · exact (arises_of_runWithin o d v h).codeName

/-- Asks for the evaluation of the source of `brokenRequest`, with data. -/
def brokenEvaluation : Request :=
  jsonRequest .evaluate (bytes "\x7b\"source\": \"print(2 *\", \"data\": \x7b\"x\": true\x7d\x7d")

/-- A server that has been asked to evaluate the source, and one that has been asked nothing. -/
theorem validation_agrees_broken : ∃ xs s report, (new {}).Serves xs s ∧
    xs.map (·.1) = [brokenEvaluation] ∧ (s.handle brokenRequest).2.1 = ⟨200, .invalid report⟩ ∧
    ((new {}).handle brokenEvaluation).2.1 = ⟨400, .failed report⟩ ∧
    report.code = bytes "PARSE_ERROR" ∧ report.output = [] := by
  have hserves : (new {}).Serves _ _ := .answer brokenEvaluation (.nil _)
  have hvalidate : brokenRequest.Submits {} .validate { source := bytes "print(2 *" } :=
    ⟨by decide +kernel, rfl, by decide +kernel, rfl⟩
  have hevaluate : brokenEvaluation.Submits {} .evaluate
      { source := bytes "print(2 *", data := [(bytes "x", .bool true)] } :=
    ⟨by decide +kernel, rfl, by decide +kernel, rfl⟩
  obtain ⟨e, hparse, hcode⟩ : ∃ e, Program.parse (bytes "print(2 *") = .error e ∧
      e.codeName = bytes "PARSE_ERROR" := ⟨_, rfl, rfl⟩
  have hinvalid := ((of_new {}).serves hserves).answer_validate hvalidate
  rw [hparse] at hinvalid
  obtain ⟨-, hsame, -⟩ := validation_agrees hserves (.nil _) hvalidate hevaluate
    ⟨by decide, by decide, by decide⟩ rfl
  obtain ⟨hfailed, hsilent⟩ := hsame _ hinvalid
  exact ⟨_, _, _, hserves, rfl, hinvalid, hfailed, hcode, hsilent⟩

end Server

end Mycel
