import Mathlib.Algebra.BigOperators.Intervals
import Mycel.Proofs.Server.Validation

/-!
# Counts of evaluations

A server counts each evaluation that it is asked for by its outcome, and adds up the bounces. What
it counts is what the evaluations come to (`Server.Of.observed`). What it answers is that, too, with
one exception: JSON has no numbers that are not finite, and an evaluation with such a result is
answered by a refusal, but counted among those that gave a value. The answers and the counts agree
exactly as long as there is no such result (`Server.truthful_iff`).
-/

namespace Mycel

/-! ## Counters -/

namespace Metrics

theorem count_increment (outcome code : Text) (xs : List (Text × Nat)) (b b' : Nat) :
    count ⟨increment outcome xs, b⟩ code =
      count ⟨xs, b'⟩ code + if outcome = code then 1 else 0 := by
  induction xs with
  | nil => by_cases h : outcome = code <;> simp [count, increment, h]
  | cons x xs ih =>
    obtain ⟨o, n⟩ := x
    by_cases ho : o = outcome
    · by_cases h : outcome = code <;> simp [count, increment, ho, h]
    · by_cases h : o = code
      · subst h
        simp [count, increment, ho, Ne.symm ho]
      · simpa [count, increment, ho, h] using ih

/-- One evaluation more counts for its outcome and for no other. -/
theorem count_observe (m : Metrics) (outcome code : Text) (bounces : Nat) :
    (m.observe outcome bounces).count code = m.count code + if outcome = code then 1 else 0 :=
  count_increment outcome code m.outcomes _ _

/-- There is one counter for each outcome that occurred. -/
structure Tidy (m : Metrics) : Prop where
  nodup : (m.outcomes.map (·.1)).Nodup
  pos : ∀ x ∈ m.outcomes, 0 < x.2

theorem mem_increment {outcome code : Text} {xs : List (Text × Nat)} :
    code ∈ (increment outcome xs).map (·.1) ↔ code = outcome ∨ code ∈ xs.map (·.1) := by
  induction xs with
  | nil => simp [increment]
  | cons x xs ih =>
    obtain ⟨o, n⟩ := x
    by_cases ho : o = outcome
    · simp [increment, ho]
    · simp only [increment, if_neg ho, List.map_cons, List.mem_cons, ih]
      exact or_left_comm

theorem tidy_increment {outcome : Text} {xs : List (Text × Nat)} {b b' : Nat}
    (h : Tidy ⟨xs, b⟩) : Tidy ⟨increment outcome xs, b'⟩ := by
  induction xs with
  | nil => exact ⟨by simp [increment], by simp [increment]⟩
  | cons x xs ih =>
    obtain ⟨o, n⟩ := x
    obtain ⟨hfresh, hnodup⟩ := List.nodup_cons.1 h.nodup
    obtain ⟨hn, hpos⟩ := List.forall_mem_cons.1 h.pos
    unfold increment
    split_ifs with ho
    · exact ⟨h.nodup, List.forall_mem_cons.2 ⟨Nat.succ_pos n, hpos⟩⟩
    · have hrest := ih ⟨hnodup, hpos⟩
      refine ⟨List.nodup_cons.2 ⟨fun hmem => ?_, hrest.nodup⟩,
        List.forall_mem_cons.2 ⟨hn, hrest.pos⟩⟩
      exact (mem_increment.1 hmem).elim ho hfresh

theorem Tidy.observe {m : Metrics} (h : m.Tidy) (outcome : Text) (bounces : Nat) :
    (m.observe outcome bounces).Tidy :=
  tidy_increment (b := m.bounces) h

/-- The counter of an outcome says how often it occurred. -/
theorem Tidy.count_eq {m : Metrics} (h : m.Tidy) {code : Text} {n : Nat}
    (hmem : (code, n) ∈ m.outcomes) : m.count code = n := by
  obtain ⟨xs, b⟩ := m
  induction xs with
  | nil => cases hmem
  | cons x xs ih =>
    obtain ⟨hfresh, hnodup⟩ := List.nodup_cons.1 h.nodup
    rcases List.mem_cons.1 hmem with rfl | hmem
    · simp [count]
    · have hne : ¬ x.1 = code := by
        rintro rfl
        exact hfresh (List.mem_map.2 ⟨_, hmem, rfl⟩)
      have hrest := ih ⟨hnodup, (List.forall_mem_cons.1 h.pos).2⟩ hmem
      simpa [count, hne] using hrest

theorem Tidy.count_pos_iff {m : Metrics} (h : m.Tidy) (code : Text) :
    0 < m.count code ↔ code ∈ m.outcomes.map (·.1) := by
  constructor
  · intro hpos
    by_contra hcode
    have hnone : m.outcomes.find? (fun x => x.1 == code) = none := by
      refine List.find?_eq_none.2 fun x hx heq => hcode ?_
      exact beq_iff_eq.1 heq ▸ List.mem_map_of_mem (f := Prod.fst) hx
    simp [count, hnone] at hpos
  · intro hmem
    obtain ⟨x, hx, rfl⟩ := List.mem_map.1 hmem
    rw [h.count_eq hx]
    exact h.pos x hx

/-- The report has one line for each outcome that occurred, with how often it did, and one for the
bounces. -/
structure Shown (m : Metrics) : Prop where
  outcomes : ∃ f ∈ m.families, f.name = "wscript_evaluations_total" ∧
    ∃ codes : List Text, codes.Nodup ∧ (∀ code, code ∈ codes ↔ 0 < m.count code) ∧
      f.samples.Perm (codes.map fun code => labeled f.name code ++ counter (m.count code))
  bounces : ∃ f ∈ m.families, f.name = "wscript_trampoline_bounces_total" ∧
    f.samples = [bytes (f.name ++ " ") ++ counter m.bounces]

theorem Tidy.shown {m : Metrics} (h : m.Tidy) : m.Shown := by
  have hlines : (m.outcomes.map (·.1)).map (fun code =>
      labeled "wscript_evaluations_total" code ++ counter (m.count code)) =
      m.outcomes.map fun x => labeled "wscript_evaluations_total" x.1 ++ counter x.2 := by
    rw [List.map_map]
    refine List.map_congr_left fun x hx => ?_
    rw [Function.comp_apply, h.count_eq hx]
  refine ⟨⟨_, .tail _ (.head _), rfl, m.outcomes.map (·.1), h.nodup, fun code => ?_, ?_⟩,
    _, .tail _ (.tail _ (.head _)), rfl, rfl⟩
  · exact (h.count_pos_iff code).symm
  · rw [hlines]
    exact List.mergeSort_perm _ _

end Metrics

/-! ## Answers -/

/-- The code of the error in an answer. -/
def Answer.code? : Answer → Option Text
  | .failed report => some report.code
  | _ => none

/-- Whether an evaluation gave a value that JSON does not have. -/
def Evaluation.isLost (e : Evaluation) : Bool :=
  match e.result with
  | .ok (.number x) => !x.isFinite
  | _ => false

/-- An answer that tells how an evaluation ended and what it wrote. -/
structure Response.Tells (a : Response) (x : Session × Evaluation) : Prop where
  value : ∀ v, x.2.result = .ok v →
    a = ⟨200, .evaluated v x.1.store.world.output.text x.2.steps x.2.bounces x.2.hasRun⟩
  error : ∀ e, x.2.result = .error e →
    a = ⟨400, .failed
      { message := e.text
        code := e.codeName
        pos := (e.diagnostic?.map (·.pos)).getD Pos.none
        output := x.1.store.world.output.text }⟩

theorem Response.Tells.status {a : Response} {x : Session × Evaluation} (h : a.Tells x) :
    a.status = 200 ∨ a.status = 400 := by
  cases hresult : x.2.result with
  | ok v => exact .inl (congrArg Response.status (h.value v hresult))
  | error e => exact .inr (congrArg Response.status (h.error e hresult))

namespace Server

/-- The answer to an evaluation. -/
def reply (x : Session × Evaluation) : Response :=
  evaluationResponse x.1.store.world.output.text x.2

variable {x : Session × Evaluation}

theorem reply_tells (h : x.2.isLost = false) : (reply x).Tells x := by
  refine ⟨fun v hv => ?_, fun e he => evaluationResponse_of_error he⟩
  unfold reply evaluationResponse
  rw [Evaluation.isLost, hv] at h
  rw [hv]
  cases v with
  | number y =>
    have hy : y.isFinite = true := by simpa using h
    simp only [hy, if_true]
  | _ => rfl

theorem status_reply_of_isLost (h : x.2.isLost = true) :
    (reply x).status = 500 ∧ ∃ v, x.2.result = .ok v := by
  unfold Evaluation.isLost at h
  unfold reply evaluationResponse
  split at h
  · rename_i y hy
    have hinfinite : ¬ y.isFinite = true := by simpa using h
    rw [hy]
    exact ⟨by simp only [if_neg hinfinite, Response.refusal], _, rfl⟩
  · cases h

/-- An evaluation is counted as a success if its answer says so, or if it is lost. -/
theorem outcome_eq_success_iff
    (hcodes : ∀ e, x.2.result = .error e → e.codeName ≠ Metrics.success) :
    outcome x.2 = Metrics.success ↔ (reply x).status = 200 ∨ (reply x).status = 500 := by
  unfold outcome
  cases hresult : x.2.result with
  | error e =>
    have hreply : reply x = _ := evaluationResponse_of_error hresult
    simp [hreply, hcodes e hresult]
  | ok v =>
    refine iff_of_true rfl ?_
    cases hlost : x.2.isLost with
    | true => exact .inr (status_reply_of_isLost hlost).1
    | false => exact .inl (congrArg Response.status ((reply_tells hlost).value v hresult))

/-- An evaluation is counted by the code of its error if its answer has it. -/
theorem outcome_eq_iff {code : Text} (hcode : code ≠ Metrics.success) :
    outcome x.2 = code ↔ (reply x).status = 400 ∧ (reply x).answer.code? = some code := by
  unfold outcome
  cases hresult : x.2.result with
  | error e =>
    have hreply : reply x = _ := evaluationResponse_of_error hresult
    simp [hreply, Answer.code?, ErrorReport.ofError]
  | ok v =>
    refine iff_of_false (Ne.symm hcode) fun h => ?_
    obtain ⟨e, he⟩ := error_of_status h.1
    rw [hresult] at he
    cases he

variable {o : ServerOptions} {s t : Server} {xs : List (Request × Response)}

/-! ## Histories -/

/-- The evaluation that a request asks for. -/
def requested (o : ServerOptions) (r : Request) : Session × Evaluation :=
  evaluation o ((Submission.ofRequest? o.readOther r).getD {})

/-- A request for an evaluation that a server lets through. -/
def Asks (o : ServerOptions) (r : Request) : Prop := ∃ q, r.Submits o .evaluate q ∧ q.Admissible

/-- A request for an evaluation is answered, and counted by the outcome. -/
theorem Of.handle_asks (hs : s.Of o) {r : Request} (hr : Asks o r) :
    (s.handle r).2.1 = reply (requested o r) ∧
      (s.handle r).1.metrics =
        s.metrics.observe (outcome (requested o r).2) (requested o r).2.bounces := by
  obtain ⟨q, hsubmits, hq⟩ := hr
  have hrequested : requested o r = evaluation o q := by
    rw [requested, hsubmits.submission]
    rfl
  rw [hrequested]
  refine ⟨hs.answer_evaluate hsubmits hq, ?_⟩
  rw [hs.handle_evaluate hsubmits]
  unfold Server.evaluate
  simp only [hq.refusal?, hs.cache.program, hs.options, run_eq_evaluation]

/-- What is counted when a server has answered requests for evaluations. -/
theorem Of.observed (hs : s.Of o) (h : s.Serves xs t) (hxs : ∀ x ∈ xs, Asks o x.1) :
    (∀ x ∈ xs, x.2 = reply (requested o x.1)) ∧ (s.metrics.Tidy → t.metrics.Tidy) ∧
    (∀ code, t.metrics.count code =
      s.metrics.count code + xs.countP fun x => outcome (requested o x.1).2 = code) ∧
    t.metrics.bounces = s.metrics.bounces + (xs.map fun x => (requested o x.1).2.bounces).sum := by
  induction h with
  | nil s => simp
  | cache c hc _ ih => exact ih (hs.lose hc) hxs
  | @answer s t xs r _ ih =>
    obtain ⟨hr, hxs⟩ := List.forall_mem_cons.1 hxs
    obtain ⟨hreply, hmetrics⟩ := hs.handle_asks hr
    obtain ⟨hanswers, htidy, hcounts, hbounces⟩ := ih (hs.handle hs r).1 hxs
    refine ⟨List.forall_mem_cons.2 ⟨hreply, hanswers⟩, fun h => htidy ?_, fun code => ?_, ?_⟩
    · rw [hmetrics]
      exact h.observe _ _
    · rw [hcounts, hmetrics, Metrics.count_observe, List.countP_cons]
      simp only [decide_eq_true_eq]
      omega
    · rw [hbounces, hmetrics, List.map_cons, List.sum_cons, ← Nat.add_assoc]
      rfl

/-! ## Truth -/

/-- No error has the name by which successes are counted. -/
theorem codeName_ne_success (o : ServerOptions) (r : Request) (e : Error)
    (h : (requested o r).2.result = .error e) : e.codeName ≠ Metrics.success := by
  have hnames : ∀ c ∈ Code.all, c.name ≠ Metrics.success := by decide
  have hsources : Metrics.success ∉ Code.ofSources := by decide
  -- The code is one of the parser, or that of a fault; both are classes of the language.
  rw [requested] at h
  generalize (Submission.ofRequest? o.readOther r).getD {} = q at h
  cases hparse : Program.parse q.source with
  | error e' =>
    obtain rfl : e' = e := Except.error.inj ((evaluation_of_parse_error o hparse).1.symm.trans h)
    exact fun hname => hsources (hname ▸ Program.codeName_of_parse_error hparse)
  | ok p =>
    obtain ⟨f, pos, rfl, -⟩ := arises_of_evaluation hparse h
    rw [Fault.codeName_error]
    exact hnames f.code f.code_mem_all

/-- The counters are in the report, and those of errors and of bounces agree with the answers and
with the evaluations. -/
structure Counted (o : ServerOptions) (xs : List (Request × Response)) (m : Metrics) : Prop where
  shown : m.Shown
  failed : ∀ code, code ≠ Metrics.success →
    m.count code = xs.countP fun x => x.2.status = 400 ∧ x.2.answer.code? = some code
  bounces : m.bounces = (xs.map fun x => (requested o x.1).2.bounces).sum

/-- The answers to requests for evaluations tell how these ended, and all counters agree with them.
-/
structure Truthful (o : ServerOptions) (xs : List (Request × Response)) (m : Metrics) : Prop
    extends Counted o xs m where
  answers : ∀ x ∈ xs, x.2.Tells (requested o x.1)
  succeeded : m.count Metrics.success = xs.countP fun x => x.2.status = 200

/-- What a server does: evaluations that are lost are refused, and counted as if they were not. -/
structure Recorded (o : ServerOptions) (xs : List (Request × Response)) (m : Metrics) : Prop
    extends Counted o xs m where
  told : ∀ x ∈ xs, (requested o x.1).2.isLost = false → x.2.Tells (requested o x.1)
  lost : ∀ x ∈ xs, (requested o x.1).2.isLost = true →
    x.2.status = 500 ∧ ∃ v, (requested o x.1).2.result = .ok v
  succeeded : m.count Metrics.success = xs.countP fun x => x.2.status = 200 ∨ x.2.status = 500

theorem recorded_of_serves (h : (new o).Serves xs t) (hxs : ∀ x ∈ xs, Asks o x.1) :
    Recorded o xs t.metrics := by
  obtain ⟨hanswers, htidy, hcounts, hbounces⟩ := (of_new o).observed h hxs
  have hnew : (new o).metrics.Tidy := ⟨List.nodup_nil, List.forall_mem_nil _⟩
  refine ⟨⟨(htidy hnew).shown, fun code hcode => ?_, hbounces.trans (Nat.zero_add _)⟩,
    fun x hx hlost => ?_, fun x hx hlost => ?_, ?_⟩
  · rw [hcounts]
    refine (Nat.zero_add _).trans (List.countP_congr fun x hx => ?_)
    rw [hanswers x hx]
    simpa using outcome_eq_iff hcode
  · rw [hanswers x hx]
    exact reply_tells hlost
  · rw [hanswers x hx]
    exact status_reply_of_isLost hlost
  · rw [hcounts]
    refine (Nat.zero_add _).trans (List.countP_congr fun x hx => ?_)
    rw [hanswers x hx]
    simpa using outcome_eq_success_iff (codeName_ne_success o x.1)

/-- Answers and counters are true exactly if no evaluation gave a number that is not finite. -/
theorem truthful_iff (h : (new o).Serves xs t) (hxs : ∀ x ∈ xs, Asks o x.1) :
    Recorded o xs t.metrics ∧
      (Truthful o xs t.metrics ↔ ∀ x ∈ xs, (requested o x.1).2.isLost = false) := by
  have hrecorded := recorded_of_serves h hxs
  refine ⟨hrecorded, fun htrue x hx => ?_, fun hkept => ⟨hrecorded.toCounted, fun x hx => ?_, ?_⟩⟩
  · rw [Bool.eq_false_iff]
    intro hlost
    have hrefused := (hrecorded.lost x hx hlost).1
    have htold := (htrue.answers x hx).status
    omega
  · exact hrecorded.told x hx (hkept x hx)
  · rw [hrecorded.succeeded]
    refine List.countP_congr fun x hx => ?_
    have hstatus := (hrecorded.told x hx (hkept x hx)).status
    simp only [decide_eq_true_eq]
    omega

theorem asks_of_jsonRequest {body : Text} (hsize : body.length ≤ o.withDefaults.bodyLimit)
    (h : (Submission.ofRequest? o.readOther (jsonRequest .evaluate body)).any (fun q =>
      !q.source.isBlank && decide (0 ≤ q.stackBudget) && decide (q.stackBudget ≤ 10000)) = true) :
    Asks o (jsonRequest .evaluate body) := by
  have hendpoint : Endpoint.at? (jsonRequest .evaluate []).path = some .evaluate := by
    decide +kernel
  obtain ⟨q, hq, hadmissible⟩ := Option.any_eq_true _ _ |>.1 h
  simp only [Bool.and_eq_true, Bool.not_eq_true', decide_eq_true_eq] at hadmissible
  obtain ⟨⟨hsource, hleast⟩, hgreatest⟩ := hadmissible
  exact ⟨q, ⟨hsize, rfl, hendpoint, hq⟩, hsource, hleast, hgreatest⟩

/-- A program that writes, and a source that is no program. -/
theorem truthful_printRequest : ∃ xs t, (new {}).Serves xs t ∧
    xs.map (·.1) = [printRequest, brokenEvaluation] ∧ xs.map (·.2.status) = [200, 400] ∧
    t.metrics.count Metrics.success = 1 ∧ t.metrics.count (bytes "PARSE_ERROR") = 1 ∧
    Truthful {} xs t.metrics := by
  have hserves : (new {}).Serves _ _ := .answer printRequest (.answer brokenEvaluation (.nil _))
  have hprint : Asks {} printRequest :=
    asks_of_jsonRequest (by decide +kernel) (by decide +kernel)
  have hbroken : Asks {} brokenEvaluation :=
    asks_of_jsonRequest (by decide +kernel) (by decide +kernel)
  have hprinted : (requested {} printRequest).2.isLost = false := by decide +kernel
  have hrefused : (requested {} brokenEvaluation).2.isLost = false := by decide +kernel
  refine ⟨_, _, hserves, rfl, by decide +kernel, by decide +kernel, by decide +kernel, ?_⟩
  have htruthful := truthful_iff hserves
    (List.forall_mem_cons.2 ⟨hprint, List.forall_mem_singleton.2 hbroken⟩)
  exact htruthful.2.2 (List.forall_mem_cons.2 ⟨hprinted, List.forall_mem_singleton.2 hrefused⟩)

/-- Asks for ten times the number in the data, which is more than a double can hold. -/
def overflowRequest : Request :=
  jsonRequest .evaluate
    (bytes "\x7b\"source\": \"x * 10\", \"data\": \x7b\"x\": 1e308\x7d\x7d")

/-- An evaluation that gives a value, an infinite one, is refused and counted as a success. -/
theorem overflow_not_truthful : ∃ xs t, (new {}).Serves xs t ∧ (∀ x ∈ xs, Asks {} x.1) ∧
    xs.map (·.1) = [overflowRequest] ∧ xs.map (·.2.status) = [500] ∧
    t.metrics.count Metrics.success = 1 ∧ ¬ Truthful {} xs t.metrics := by
  have hserves : (new {}).Serves _ _ := .answer overflowRequest (.nil _)
  have hasks : Asks {} overflowRequest :=
    asks_of_jsonRequest (by decide +kernel) (by decide +kernel)
  have hstatus : ((new {}).handle overflowRequest).2.1.status = 500 := by decide +kernel
  have hcount : ((new {}).handle overflowRequest).1.metrics.count Metrics.success = 1 := by
    decide +kernel
  refine ⟨_, _, hserves, List.forall_mem_singleton.2 hasks, rfl, ?_, hcount, fun htrue => ?_⟩
  · simp only [List.map_cons, List.map_nil, hstatus]
  · have hsucceeded := htrue.succeeded
    simp [hcount, hstatus] at hsucceeded

end Server

end Mycel
