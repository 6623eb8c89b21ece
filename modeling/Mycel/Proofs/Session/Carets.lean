import Mycel.Proofs.Error.Snippets
import Mycel.Proofs.Machine.Blame
import Mycel.Proofs.Session.Evaluation
import Mycel.Proofs.Syntax.Completion
import Mycel.Proofs.Token.Peeking

/-!
# Carets of a session

A session shows an error with a snippet of the source that it has just evaluated. The position of
the error is that of a token of this source, unless the evaluation fails in a closure that an
earlier source has made: then it is a position in that source, which the snippet is not about
(`Session.caret_cases`).
-/

namespace Mycel

open Mycel.Stream

/-! ## Places of a source -/

/-- After some tokens and a gap, the next token stands at the position, which may be the end of the
source, or something stands there that cannot be scanned. -/
def Text.HasTokenAt (source : Text) (pos : Pos) : Prop :=
  ∃ ts c, (Cursor.ofSource source).Takes ts c ∧
    ((∃ t, c.scan.1 = .ok t ∧ t.pos = pos) ∨ ∃ f : Fault, c.scan.1 = .error (f.error pos))

/-- Whatever is scanned next has the position after the gap. -/
theorem Cursor.scan_cases_pos (c : Cursor) :
    (∃ t, c.scan.1 = .ok t ∧ t.pos = c.skipGap.pos) ∨
      ∃ f : Fault, c.scan.1 = .error (f.error c.skipGap.pos) := by
  unfold scan
  dsimp only
  split
  · exact .inl ⟨_, rfl, rfl⟩
  · exact .inr ⟨_, rfl⟩

namespace Text

variable {source : Text}

theorem hasTokenAt_of_takes {ts : List Token} {c : Cursor}
    (h : (Cursor.ofSource source).Takes ts c) : source.HasTokenAt c.skipGap.pos :=
  ⟨ts, c, h, c.scan_cases_pos⟩

theorem HasTokenAt.within {pos : Pos} (h : source.HasTokenAt pos) : pos.Within source := by
  obtain ⟨ts, c, htakes, hpos⟩ := h
  have hgap : c.skipGap.In source := (htakes.in ⟨[], rfl, rfl⟩).skip _
  have heq : pos = c.skipGap.pos := by
    rcases c.scan_cases_pos with ⟨t, ht, htpos⟩ | ⟨f, hf⟩ <;>
      rcases hpos with ⟨u, hu, rfl⟩ | ⟨g, hg⟩
    · cases ht.symm.trans hu
      exact htpos
    · cases ht.symm.trans hg
    · cases hf.symm.trans hu
    · exact Fault.pos_of_error_eq (Except.error.inj (hg.symm.trans hf))
  exact heq ▸ hgap.within

/-- Nothing stands beyond the end of a line. -/
theorem not_hasTokenAt_of_lt {pos : Pos} {line : Text}
    (hline : source.lines[(pos.line - 1).toNat]? = some line)
    (hcolumn : (line.length : Int) + 1 < pos.column) : ¬ source.HasTokenAt pos := by
  intro h
  obtain ⟨-, -, -, shown, hshown, hend⟩ := h.within
  cases hline.symm.trans hshown
  omega

theorem hasTokenAt_of_scans {ts : List Token} (h : (Cursor.ofSource source).Scans ts) {t : Token}
    (ht : t ∈ ts) : source.HasTokenAt t.pos := by
  have hplace : ∀ {c : Cursor} {us : List Token}, c.Scans us → t ∈ us →
      ∃ vs d, c.Takes vs d ∧ d.scan.1 = .ok t := by
    intro c us hscans ht
    induction hscans with
    | finish _ => cases ht
    | token hscan hne _ ih =>
      rcases List.mem_cons.1 ht with rfl | ht
      · exact ⟨[], _, .nil, by rw [hscan]⟩
      · obtain ⟨vs, d, htakes, hd⟩ := ih ht
        exact ⟨_ :: vs, d, .cons hscan hne htakes, hd⟩
  obtain ⟨vs, d, htakes, hd⟩ := hplace h ht
  exact ⟨vs, d, htakes, .inl ⟨t, hd, rfl⟩⟩

/-- An error of parsing is at a token of the source, or at what cannot be scanned. -/
theorem hasTokenAt_of_parse_error {e : Error} (h : Program.parse source = .error e) {d : Diagnostic}
    (hd : e.diagnostic? = some d) : source.HasTokenAt d.pos := by
  have hblames := Program.blames_parse source
  rw [h] at hblames
  rcases hblames with hlast | ⟨ts, s, t, f, hs, ht, -, rfl⟩
  · obtain ⟨ts, hts⟩ := eq_broken hlast
    obtain ⟨c, n, htakes, hn, hbroken⟩ := takes_of_ofSource hts
    have hscan : c.scan.1 = .error e := (peek_scanWithin hn).symm.trans (congrArg peek hbroken.symm)
    rcases c.scan_cases_pos with ⟨t, ht, -⟩ | ⟨f, hf⟩
    · cases hscan.symm.trans ht
    · cases hscan.symm.trans hf
      rw [Fault.diagnostic?_error] at hd
      cases hd
      exact hasTokenAt_of_takes htakes
  · obtain ⟨c, n, htakes, hn, rfl⟩ := takes_of_ofSource hs
    have hscan : c.scan.1 = .ok t := (peek_scanWithin hn).symm.trans ht
    rw [Fault.diagnostic?_error] at hd
    cases hd
    exact ⟨ts, c, htakes, .inl ⟨t, hscan, rfl⟩⟩

/-- An evaluation of the program of a source can fail only at tokens of the source. -/
theorem hasTokenAt_of_contains {p : Program} (h : Program.parse source = .ok p)
    {e : Node} (he : p.toNode.Contains e) (hfail : e.CanFail) : source.HasTokenAt e.pos := by
  obtain ⟨ts, hscans, hwhole⟩ := Program.whole_of_parse h
  obtain ⟨σ, hσ⟩ := he
  have hplace : ∃ t ∈ ts, t.pos = e.pos := by
    cases hwhole.occurs hσ with
    | identifier hpos | assign hpos | binary hpos | call hpos => exact hpos
    | _ => exact hfail.elim
  obtain ⟨t, ht, hpos⟩ := hplace
  exact hpos ▸ hasTokenAt_of_scans hscans ht

end Text

/-- A snippet for a place of the source frames this place. -/
theorem Error.render_of_within {e chain : Error} {d : Diagnostic} {source : Text}
    (hfirst : e.first? = some (d, chain)) (hwithin : d.pos.Within source) (hsource : source ≠ []) :
    ∃ rows, Snippet.Frames source d.pos.line.toNat d.pos.column.toNat rows ∧
      e.render source = chain.text ++ bytes "\n\n" ++ Text.join [Text.newline] rows := by
  obtain ⟨hfrom, hto, hcolumn, shown, hshown, hend⟩ := hwithin
  have hline : Snippet.lineNumber d.pos source.lines = d.pos.line.toNat := by
    simp only [Snippet.lineNumber]
    omega
  have hindex : d.pos.line.toNat - 1 = (d.pos.line - 1).toNat := by omega
  have hcolumn : Snippet.columnNumber d.pos shown = d.pos.column.toNat := by
    simp only [Snippet.columnNumber]
    omega
  rw [← hindex, ← hline] at hshown
  have hframes := Snippet.frames_rows (by omega) hshown
  rw [hline, hcolumn] at hframes
  exact ⟨_, hframes, Error.render_of_first hfirst (by omega) hsource⟩

/-! ## Evaluations of a session -/

namespace Session

/-- One of the session's scopes binds a name to the closure. -/
def Binds (s : Session) (c : Closure) : Prop :=
  ∃ f ∈ s.store.world.heap.frames, ∃ b ∈ f.bindings, b.2 = .closure c

/-- The evaluation of a program calls the closure at some time. -/
def Calls (s : Session) (o : Override) (p : Program) (c : Closure) : Prop :=
  ∃ n x args k, State.iterate State.step n (s.start o p) = .running x ∧ x.control = .enter c args k

/-- What the evaluation of a program works on. -/
def origin (s : Session) (o : Override) (p : Program) : Origin where
  roots r := r = p.toNode ∨ ∃ c, s.Binds c ∧ s.Calls o p c ∧ r = c.body
  earlier := s.Binds
  buffers := s.store.buffers.size

end Session

/-- What all evaluations of some sources work on. -/
def Origin.ofSources (sources : List Text) : Origin where
  roots r := ∃ source ∈ sources, ∃ p, Program.parse source = .ok p ∧ r = p.toNode
  earlier _ := False
  buffers := 0

theorem Origin.Has.append {sources : List Text} {e : Node} (h : (ofSources sources).Has e)
    (source : Text) : (ofSources (sources ++ [source])).Has e := by
  intro hpresent
  obtain ⟨r, ⟨u, hu, hr⟩, hcontains⟩ := h hpresent
  exact ⟨r, ⟨u, List.mem_append_left _ hu, hr⟩, hcontains⟩

namespace Session

variable {s : Session} {sources : List Text}

/-- Before an evaluation there is nothing but its program and what the session has bound. -/
theorem from_start (hs : s.store.world.heap.From (.ofSources sources)) (o : Override)
    (p : Program) : (s.start o p).From (s.origin o p) := by
  refine ⟨⟨fun f hf b hb => ?_, Nat.le_refl _, fun i vs hi hvs => ?_⟩, ⟨fun _ => ?_, trivial⟩, rfl⟩
  · have hv := hs f hf b hb
    cases hb' : b.2 with
    | closure c => exact .inr ⟨f, hf, b, hb, hb'⟩
    | builtin id name action =>
      rw [hb'] at hv
      exact hv
    | _ => trivial
  · have hnone : s.store.buffers[i]? = none := Array.getElem?_eq_none hi
    cases hnone.symm.trans hvs
  · exact ⟨p.toNode, .inl rfl, [], .here⟩

theorem covered (s : Session) (o : Override) (p : Program) (n : Nat) (x : State)
    (hx : State.iterate State.step n (s.start o p) = .running x) : x.Covered (s.origin o p) := by
  intro c args k hcontrol hc _
  exact ⟨c.body, .inr ⟨c, hc, ⟨n, x, args, k, hx, hcontrol⟩, rfl⟩, [], .here⟩

theorem Binds.has {c : Closure} (h : s.Binds c)
    (hs : s.store.world.heap.From (.ofSources sources)) :
    (Origin.ofSources sources).Has c.body := by
  obtain ⟨f, hf, b, hb, hbc⟩ := h
  have hv := hs f hf b hb
  rw [hbc] at hv
  exact hv.elim id False.elim

/-- What an evaluation works on comes from its source or from the earlier ones. -/
theorem has_of_origin (hs : s.store.world.heap.From (.ofSources sources)) {o : Override}
    {source : Text} {p : Program} (hparse : Program.parse source = .ok p) {e : Node}
    (he : (s.origin o p).Has e) : (Origin.ofSources (sources ++ [source])).Has e := by
  intro hpresent
  obtain ⟨r, rfl | ⟨c, hc, -, rfl⟩, hcontains⟩ := he hpresent
  · exact ⟨p.toNode, ⟨source, by simp, p, hparse, rfl⟩, hcontains⟩
  · obtain ⟨r, hr, hbody⟩ := (hc.has hs).append source (hcontains.isPresent hpresent)
    exact ⟨r, hr, hbody.trans hcontains⟩

/-- What an evaluation leaves behind are closures of its source and of the earlier ones. -/
theorem from_eval (hs : s.store.world.heap.From (.ofSources sources)) (o : Override)
    (source : Text) :
    (s.eval o source).1.store.world.heap.From (.ofSources (sources ++ [source])) := by
  obtain ⟨e, -, hsession, -⟩ | ⟨p, hparse, ⟨n, st, result, hrun, hsession, -⟩ | ⟨hsession, -⟩⟩ :=
    s.eval_cases o source
  · rw [hsession]
    refine fun f hf b hb => (hs f hf b hb).imp fun c hc => .inl ?_
    exact hc.elim (·.append source) False.elim
  · have hheap := State.from_iterate (from_start hs o p) (s.covered o p) n
    rw [hrun] at hheap
    rw [hsession]
    refine fun f hf b hb => (hheap.1 f hf b hb).imp fun c hc => .inl ?_
    exact hc.elim (has_of_origin hs hparse) fun hbinds => (hbinds.has hs).append source
  · rw [hsession]
    exact fun f hf => absurd hf (Array.not_mem_empty f)

theorem from_evalAll (hs : s.store.world.heap.From (.ofSources sources))
    (inputs : List (Override × Text)) :
    (s.evalAll inputs).store.world.heap.From (.ofSources (sources ++ inputs.map (·.2))) := by
  induction inputs generalizing s sources with
  | nil =>
    rw [List.map_nil, List.append_nil]
    exact hs
  | cons i inputs ih =>
    have hrest := ih (from_eval hs i.1 i.2)
    rw [List.append_assoc] at hrest
    exact hrest

/-- A new session binds nothing but the builtins that write. -/
theorem from_new {w : World} (hw : w.heap = Heap.empty) (o : Origin) :
    (Session.new w).store.world.heap.From o := by
  have hroot : w.heap.root.From o := by
    rw [hw]
    exact Heap.forall_push (fun f hf => absurd hf (Array.not_mem_empty f)) none
  have hprint := Heap.forall_define hroot w.heap.next (bytes "print")
    (v := .builtin w.fresh (bytes "print") .print) trivial
  exact Heap.forall_define hprint w.heap.next (bytes "println")
    (v := .builtin (w.fresh + 1) (bytes "println") .println) trivial

/-- A session that has begun in a world without scopes, after some inputs. -/
def entered (w : World) (settings : Settings) (inputs : List (Override × Text)) : Session :=
  evalAll { Session.new w with settings } inputs

end Session

/-! ## Carets -/

/-- The error is shown with a caret under a token of the source, or under what cannot be scanned
there. If it is not an error of parsing, that is where the expression stands that has failed. -/
structure Error.PointsInto (e : Error) (source : Text) (pos : Pos) : Prop where
  token : source.HasTokenAt pos
  failing : ∀ p, Program.parse source = .ok p →
    ∃ node, p.toNode.Contains node ∧ node.CanFail ∧ node.pos = pos
  caret : source ≠ [] → ∃ front rows, Snippet.Frames source pos.line.toNat pos.column.toNat rows ∧
    e.render source = front ++ bytes "\n\n" ++ Text.join [Text.newline] rows

theorem Error.pointsInto {e : Error} {source : Text} {d : Diagnostic}
    (hd : e.diagnostic? = some d) (htoken : source.HasTokenAt d.pos)
    (hfailing : ∀ p, Program.parse source = .ok p →
      ∃ node, p.toNode.Contains node ∧ node.CanFail ∧ node.pos = d.pos) :
    e.PointsInto source d.pos := by
  refine ⟨htoken, hfailing, fun hsource => ?_⟩
  obtain ⟨⟨d', chain⟩, hfirst, rfl⟩ := Option.map_eq_some_iff.1 hd
  obtain ⟨rows, hframes, hrender⟩ := Error.render_of_within hfirst htoken.within hsource
  exact ⟨chain.text, rows, hframes, hrender⟩

namespace Session

/-- An error of a session with a position points into the source that was evaluated, unless the
evaluation has called a closure that the session had bound before. Then it may be at a node of the
body of this closure, and its position is one of an earlier source. -/
theorem caret_cases {w : World} (hw : w.heap = Heap.empty) (settings : Settings)
    (inputs : List (Override × Text)) (o : Override) (source : Text) {e : Error} {d : Diagnostic}
    (h : ((entered w settings inputs).eval o source).2.result = .error e)
    (hd : e.diagnostic? = some d) (hline : 0 < d.pos.line) :
    e.PointsInto source d.pos ∨
      ∃ p c node, Program.parse source = .ok p ∧ (entered w settings inputs).Binds c ∧
        (entered w settings inputs).Calls o p c ∧ c.body.Contains node ∧ node.CanFail ∧
        node.pos = d.pos ∧ ∃ i ∈ inputs, i.2.HasTokenAt d.pos := by
  have hs : (entered w settings inputs).store.world.heap.From
      (.ofSources ([] ++ inputs.map (·.2))) :=
    from_evalAll (s := { Session.new w with settings }) (from_new hw _) inputs
  rw [List.nil_append] at hs
  have hnone : d.pos ≠ Pos.none := by
    intro hpos
    rw [hpos] at hline
    exact absurd hline (by decide)
  obtain ⟨e', hparse, -, hresult⟩ | ⟨p, hparse, ⟨n, st, result, hrun, -, hresult⟩ | ⟨-, hresult⟩⟩ :=
    (entered w settings inputs).eval_cases o source
  · cases hresult.symm.trans h
    refine .inl (Error.pointsInto hd (Text.hasTokenAt_of_parse_error hparse hd) fun p hp => ?_)
    cases hparse.symm.trans hp
  · cases hresult.symm.trans h
    have herror := State.from_iterate (from_start hs o p) (covered _ o p) n
    rw [hrun] at herror
    obtain ⟨r, node, hr, hcontains, hfail, hpos⟩ := (herror.2 e rfl d hd).resolve_left hnone
    rcases hr with rfl | ⟨c, hbinds, hcalls, rfl⟩
    · refine .inl (Error.pointsInto hd ?_ fun p' hp' => ?_)
      · exact hpos ▸ Text.hasTokenAt_of_contains hparse hcontains hfail
      · cases hparse.symm.trans hp'
        exact ⟨node, hcontains, hfail, hpos⟩
    · have hpresent : c.body.isPresent = true := hcontains.isPresent hfail.isPresent
      obtain ⟨r, ⟨u, hu, p', hp', rfl⟩, hbody⟩ := hbinds.has hs hpresent
      obtain ⟨i, hi, rfl⟩ := List.mem_map.1 hu
      have htoken := Text.hasTokenAt_of_contains hp' (hbody.trans hcontains) hfail
      exact .inr ⟨p, c, node, hparse, hbinds, hcalls, hcontains, hfail, hpos, i, hi,
        hpos ▸ htoken⟩
  · cases hresult.symm.trans h
    rw [Fault.diagnostic?_error] at hd
    cases hd
    exact absurd rfl hnone

/-- An input that makes a closure whose body will fail. -/
def failingClosure : List (Override × Text) := [({}, bytes "f = lambda (x) y")]

/-- An input that calls what nothing defines, to the right of all that `failingClosure` says. -/
def undefinedCall : Text := bytes "f == f; f == f; f == f; z(f)"

/-- The closure is there, but the source itself is to blame: the caret stands under `z`. -/
theorem caret_cases_undefined : ∃ e d,
    ((entered {} {} failingClosure).eval {} undefinedCall).2.result = .error e ∧
    e.diagnostic? = some d ∧ d.pos = ⟨1, 25⟩ ∧ e.PointsInto undefinedCall d.pos := by
  obtain ⟨e, d, heval, hd, hpos⟩ : ∃ e d,
      ((entered {} {} failingClosure).eval {} undefinedCall).2.result = .error e ∧
      e.diagnostic? = some d ∧ d.pos = ⟨1, 25⟩ := ⟨_, _, rfl, rfl, rfl⟩
  have hline : 0 < d.pos.line := by
    rw [hpos]
    decide
  refine ⟨e, d, heval, hd, hpos,
    (caret_cases rfl {} failingClosure {} _ heval hd hline).resolve_right ?_⟩
  rintro ⟨-, -, -, -, -, -, -, -, -, i, hi, htoken⟩
  cases List.mem_singleton.1 hi
  rw [hpos] at htoken
  exact Text.not_hasTokenAt_of_lt rfl (by decide) htoken

/-- The closure is called, and the caret stands after the end of a line that says nothing of what is
undefined. -/
theorem not_hasTokenAt_failingClosure : ∃ e d,
    ((entered {} {} failingClosure).eval {} (bytes "f(true)")).2.result = .error e ∧
    e.diagnostic? = some d ∧ 0 < d.pos.line ∧ ¬ (bytes "f(true)").HasTokenAt d.pos ∧
    e.render (bytes "f(true)") =
      bytes "UNDEFINED_VARIABLE: undefined variable y (1:16)\n\n  1 | f(true)\n    |        ^" := by
  obtain ⟨e, d, heval, hd, hpos, hrender⟩ : ∃ e d,
      ((entered {} {} failingClosure).eval {} (bytes "f(true)")).2.result = .error e ∧
      e.diagnostic? = some d ∧ d.pos = ⟨1, 16⟩ ∧
      e.render (bytes "f(true)") = bytes
        "UNDEFINED_VARIABLE: undefined variable y (1:16)\n\n  1 | f(true)\n    |        ^" :=
    ⟨_, _, rfl, rfl, rfl, rfl⟩
  refine ⟨e, d, heval, hd, by rw [hpos]; decide, ?_, hrender⟩
  rw [hpos]
  exact Text.not_hasTokenAt_of_lt rfl (by decide)

end Session

end Mycel
