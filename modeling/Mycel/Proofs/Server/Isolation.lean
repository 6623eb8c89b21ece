import Mathlib.Tactic.SplitIfs
import Mycel.Server.Basic

/-!
# Requests in isolation

A server keeps parsed programs and counts from one request to the next. Its counts show only in the
report of them, and its programs do not show at all: each one that it keeps is the program of its
source (`ProgramCache.Faithful`), whatever was kept and lost before. So the answer to a request does
not depend on the requests before it (`Server.answer_in_isolation`).

What the framework reads in bodies that are not JSON is any function of the request. What becomes of
the cache between two requests is any relation that changes no program (`ProgramCache.Keeps`).
-/

namespace Mycel

/-! ## Caches -/

namespace ProgramCache

variable {c : ProgramCache} {source : Text}

/-- Every program in the cache is the one of its source. -/
def Faithful (c : ProgramCache) : Prop := ∀ e ∈ c.entries, Program.parse e.1 = .ok e.2.program

theorem Faithful.find? (hc : c.Faithful) {p : CachedProgram} (h : c.find? source = some p) :
    Program.parse source = .ok p.program := by
  unfold ProgramCache.find? at h
  split at h
  · obtain ⟨e, he, rfl⟩ := Option.map_eq_some_iff.1 h
    have hsource := List.find?_some he
    rw [← beq_iff_eq.1 hsource]
    exact hc e (List.mem_of_find?_eq_some he)
  · cases h

/-- The cache gives the program that a parser gives. -/
theorem Faithful.program (hc : c.Faithful) (source : Text) :
    (c.parse source).2.map (·.program) = Program.parse source := by
  unfold parse
  split
  · rename_i p hp
    exact (hc.find? hp).symm
  · split
    · rename_i e he
      exact he.symm
    · rename_i program hprogram
      exact hprogram.symm

theorem Faithful.parse (hc : c.Faithful) (source : Text) : (c.parse source).1.Faithful := by
  unfold ProgramCache.parse
  split
  · exact hc
  · split
    · exact hc
    · rename_i program hprogram
      dsimp only [Faithful]
      split_ifs
      · exact List.forall_mem_cons.2 ⟨hprogram, hc⟩
      · exact hc

/-- A cache loses programs, and what is left is as it was. -/
def LosesTo (c c' : ProgramCache) : Prop := c'.entries ⊆ c.entries

theorem Faithful.loses (hc : c.Faithful) {c' : ProgramCache} (h : c.LosesTo c') : c'.Faithful :=
  fun e he => hc e (h he)

/-- All that becomes of a cache is that it loses programs: what it returns for a source was stored
under it, and is as it was then. This is asked of the cache, and of the memory in which the texts of
its programs are. A framework that uses the memory of a form again has to be set up to copy it. -/
def Keeps (change : ProgramCache → ProgramCache → Prop) : Prop :=
  ∀ c c', change c c' → c.LosesTo c'

end ProgramCache

/-! ## Servers -/

namespace Server

/-- A server that was set up with some options, and whose cache is faithful. -/
structure Of (o : ServerOptions) (s : Server) : Prop where
  options : s.options = o.withDefaults
  cache : s.cache.Faithful

theorem of_new (o : ServerOptions) : (new o).Of o := ⟨rfl, List.forall_mem_nil _⟩

variable {o : ServerOptions} {s t : Server}

theorem Of.readOther (hs : s.Of o) : s.options.readOther = o.readOther := by
  rw [hs.options]
  rfl

theorem Of.evaluate (hs : s.Of o) (q : Submission) : (s.evaluate q).1.Of o := by
  unfold Server.evaluate
  split
  · exact hs
  · exact ⟨hs.options, hs.cache.parse q.source⟩

/-- The answer to a submission that is evaluated, as without a cache. -/
theorem Of.evaluate_eq (hs : s.Of o) {q : Submission} (hq : refusal? q = none) {w : World}
    {e : Evaluation} (h : run o.withDefaults q (Program.parse q.source) = (w, e)) :
    (s.evaluate q).2 =
      (evaluationResponse w.output.text e, (logEvaluation w.log e).lines.reverse) := by
  unfold Server.evaluate
  simp only [hq, hs.cache.program, hs.options, h]

theorem Of.evaluate_congr (hs : s.Of o) (ht : t.Of o) (q : Submission) :
    (s.evaluate q).2 = (t.evaluate q).2 := by
  cases hq : refusal? q with
  | none => rw [hs.evaluate_eq hq rfl, ht.evaluate_eq hq rfl]
  | some message => simp only [Server.evaluate, hq]

theorem Of.validate (hs : s.Of o) (q : Submission) : (s.validate q).1.Of o :=
  ⟨hs.options, hs.cache.parse q.source⟩

/-- The answer to a submission that is validated, as without a cache. -/
theorem Of.validate_eq (hs : s.Of o) (q : Submission) :
    (s.validate q).2 = { answer :=
      match Program.parse q.source with
      | .ok p => .valid p.body.length
      | .error e => .invalid (.ofError e) } := by
  rw [← hs.cache.program]
  unfold Server.validate
  dsimp only
  cases (s.cache.parse q.source).2 <;> rfl

/-- What a server answers depends on its options, but for the report of its counts. -/
theorem Of.serve (hs : s.Of o) (ht : t.Of o) (r : Request) (e : Endpoint) :
    (s.serve r e).1.Of o ∧ (e ≠ .metrics → (s.serve r e).2 = (t.serve r e).2) := by
  cases e with
  | health =>
    refine ⟨hs, fun _ => ?_⟩
    simp only [Server.serve, hs.options, ht.options]
  | metrics => exact ⟨hs, fun h => absurd rfl h⟩
  | evaluate =>
    simp only [Server.serve, hs.readOther, ht.readOther]
    cases Submission.ofRequest? o.readOther r with
    | none => exact ⟨hs, fun _ => rfl⟩
    | some q => exact ⟨hs.evaluate q, fun _ => hs.evaluate_congr ht q⟩
  | validate =>
    simp only [Server.serve, hs.readOther, ht.readOther]
    cases Submission.ofRequest? o.readOther r with
    | none => exact ⟨hs, fun _ => rfl⟩
    | some q =>
      refine ⟨hs.validate q, fun _ => ?_⟩
      exact congrArg (·, []) ((hs.validate_eq q).trans (ht.validate_eq q).symm)

theorem Of.route (hs : s.Of o) (ht : t.Of o) (r : Request) :
    (s.route r).1.Of o ∧
      (Endpoint.at? r.path ≠ some .metrics → (s.route r).2 = (t.route r).2) := by
  unfold Server.route
  rw [hs.options, ht.options]
  split_ifs
  · exact ⟨hs, fun _ => rfl⟩
  · exact ⟨hs, fun _ => rfl⟩
  · cases hpath : Endpoint.at? r.path with
    | none => exact ⟨hs, fun _ => rfl⟩
    | some e =>
      dsimp only
      split_ifs
      · refine ⟨(hs.serve ht r e).1, fun h => (hs.serve ht r e).2 fun he => h (by rw [he])⟩
      · exact ⟨hs, fun _ => rfl⟩

theorem Of.handle (hs : s.Of o) (ht : t.Of o) (r : Request) :
    (s.handle r).1.Of o ∧
      (Endpoint.at? r.path ≠ some .metrics → (s.handle r).2 = (t.handle r).2) := by
  obtain ⟨hof, hanswer⟩ := hs.route ht r
  unfold Server.handle
  dsimp only
  split_ifs
  · refine ⟨hof, fun h => ?_⟩
    exact congrArg (fun x : Response × List LogLine => ({ x.1 with answer := .empty }, x.2))
      (hanswer h)
  · exact ⟨hof, hanswer⟩

/-! ## Histories -/

/-- A server answers requests, one after another. At any time its cache may change as `change` says.
-/
inductive Serving (change : ProgramCache → ProgramCache → Prop) :
    Server → List (Request × Response) → Server → Prop
  | nil (s : Server) : Serving change s [] s
  | cache {s t : Server} {xs : List (Request × Response)} (c : ProgramCache)
      (hc : change s.cache c) (h : Serving change { s with cache := c } xs t) :
      Serving change s xs t
  | answer {s t : Server} {xs : List (Request × Response)} (r : Request)
      (h : Serving change (s.handle r).1 xs t) :
      Serving change s ((r, (s.handle r).2.1) :: xs) t

/-- A server answers requests, and its cache loses programs now and then. -/
abbrev Serves : Server → List (Request × Response) → Server → Prop := Serving ProgramCache.LosesTo

theorem Serving.imp {change change' : ProgramCache → ProgramCache → Prop}
    (hchange : ∀ c c', change c c' → change' c c') {xs : List (Request × Response)}
    (h : Serving change s xs t) : Serving change' s xs t := by
  induction h with
  | nil s => exact .nil s
  | cache c hc _ ih => exact .cache c (hchange _ _ hc) ih
  | answer r _ ih => exact .answer r ih

theorem Of.lose (hs : s.Of o) {c : ProgramCache} (hc : s.cache.LosesTo c) :
    Of o { s with cache := c } :=
  ⟨hs.options, hs.cache.loses hc⟩

theorem Of.serves (hs : s.Of o) {xs : List (Request × Response)} (h : s.Serves xs t) : t.Of o := by
  induction h with
  | nil s => exact hs
  | cache c hc _ ih => exact ih (hs.lose hc)
  | answer r _ ih => exact ih (hs.handle hs r).1

/-- A request with a JSON body. -/
def jsonRequest (e : Endpoint) (body : Text) : Request :=
  { method := bytes "POST", target := e.path, contentType := bytes "application/json", body }

/-- Asks for the evaluation of a program that writes. -/
def printRequest : Request := jsonRequest .evaluate (bytes "\x7b\"source\": \"print(2 * 3)\"\x7d")

/-- Asks whether a source that is no program is one. -/
def brokenRequest : Request := jsonRequest .validate (bytes "\x7b\"source\": \"print(2 *\"\x7d")

/-- A form with one field. -/
def formRequest (e : Endpoint) (body : Text) : Request :=
  { method := bytes "POST", target := e.path
    contentType := bytes "application/x-www-form-urlencoded", body }

/-- Reads a form with the one field `source`, where plus signs stand for blanks. -/
def readForm (r : Request) : Option Submission :=
  if r.contentType = bytes "application/x-www-form-urlencoded" then
    (Text.dropStart? (bytes "source=") r.body).map fun t =>
      { source := t.map fun b => if b = 43 then 32 else b }
  else none

/-- A server whose framework reads such forms. -/
def withForms : ServerOptions := { readOther := readForm }

/-- Asks for the evaluation of the program that `printRequest` is about. -/
def printForm : Request := formRequest .evaluate (bytes "source=print(2+*+3)")

/-- What is left of `printForm` in a cache that shares its memory, when the next form has
overwritten the name in it. -/
def overwritten : ProgramCache :=
  match Program.parse (bytes "write(2 * 3)") with
  | .ok p => { entries := [(bytes "print(2 * 3)", ⟨0, p⟩)] }
  | .error _ => {}

-- Such a change does not keep programs, and the answer shows it.
example : ({ new withForms with cache := overwritten }.handle printRequest).2.1.status = 400 ∧
    ((new withForms).handle printRequest).2.1.status = 200 := by
  decide +kernel

end Server

end Mycel
