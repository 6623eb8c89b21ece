import Mycel.Proofs.Token.Layout
import Mycel.Proofs.Token.Positions
import Mycel.Token.Reader

/-!
# Looking at tokens

A reader can be asked for its next token, to look at that token, or whether it is the end of the
input. Looking should not change what is read: the tokens that are taken should be the ones that
come without looking, and whoever looks should be told what comes next (`Reader.Transparent`).

A token that was looked at is remembered, so it still comes next. A fault is not. A byte that starts
no token is found again, for scanning leaves it in place, but a malformed number and a string that
is never closed are passed over. Looking is transparent just if it never meets one of these
(`Reader.transparent_iff`).
-/

namespace Mycel

/-! ## Faults found again -/

/-- A fault that scanning passes over. -/
def Fault.IsPassed (f : Fault) : Prop :=
  (∃ literal, f = .malformedNumber literal) ∨ ∃ rest, f = .unterminatedString rest

/-- The result is a fault that scanning passes over. -/
def Passes (result : Except Error Token) : Prop :=
  ∃ f pos, Fault.IsPassed f ∧ result = .error (f.error pos)

theorem Scan.lexeme_error_cases {t : Text} {f : Fault} {n : Nat} (h : lexeme t = .error (f, n)) :
    (∃ b, f = .invalidCharacter b ∧ n = 0) ∨ f.IsPassed ∧ t ≠ [] ∧ 0 < n := by
  cases t with
  | nil => cases h
  | cons b rest =>
    simp only [lexeme] at h
    split_ifs at h with hquote hdigit
    · split at h
      · cases h
      · cases h
        exact .inr ⟨.inr ⟨_, rfl⟩, List.cons_ne_nil _ _, Nat.succ_pos _⟩
    · split at h
      · cases h
      · cases h
        refine .inr ⟨.inl ⟨_, rfl⟩, List.cons_ne_nil _ _, ?_⟩
        simp [numberLength, hdigit]
    · split at h
      · cases h
      · cases h
    · split at h
      · cases h
      · cases h
        exact .inl ⟨b, rfl, rfl⟩

theorem not_passes_invalidCharacter (b : UInt8) (pos : Pos) :
    ¬Passes (.error ((Fault.invalidCharacter b).error pos)) := by
  rintro ⟨f, pos', hf, h⟩
  have hsame := congrArg Error.diagnostic? (Except.error.inj h)
  rw [Fault.diagnostic?_error, Fault.diagnostic?_error] at hsame
  have hmessage := congrArg Diagnostic.message (Option.some.inj hsame)
  rcases hf with ⟨literal, rfl⟩ | ⟨rest, rfl⟩
  · have hfirst : (105 : UInt8) = 109 := (List.cons.inj hmessage).1
    exact absurd hfirst (by decide)
  · have hfirst : (105 : UInt8) = 117 := (List.cons.inj hmessage).1
    exact absurd hfirst (by decide)

/-- An error tells where it is. -/
theorem Fault.pos_of_error_eq {f f' : Fault} {pos pos' : Pos} (h : f.error pos = f'.error pos') :
    pos = pos' := by
  have hsame := congrArg Error.diagnostic? h
  rw [Fault.diagnostic?_error, Fault.diagnostic?_error] at hsame
  exact congrArg Diagnostic.pos (Option.some.inj hsame)

namespace Cursor

variable {c c' : Cursor}

/-- The position of what is scanned after some bytes of a text is another one. -/
theorem pos_skipGap_skip_ne {u : Text} (hu : u ≠ []) (pos : Pos) {n : Nat} (hn : 0 < n) :
    pos ≠ ((⟨u, pos⟩ : Cursor).skip n).skipGap.pos := by
  obtain ⟨b, rest, rfl⟩ := List.exists_cons_of_ne_nil hu
  obtain ⟨n, rfl⟩ := Nat.exists_eq_add_one.2 hn
  have hlater : pos.Precedes ((⟨b :: rest, pos⟩ : Cursor).skip (n + 1)).skipGap.pos :=
    Pos.precedes_after (Pos.precedes_after (pos.precedes_next b) (rest.take n)) _
  intro heq
  rw [← heq, Pos.Precedes] at hlater
  omega

/-- Where a fault was found it is found again, unless scanning passes over it: then something else
comes. -/
theorem scan_after_error {e : Error} (h : c.scan = (.error e, c')) :
    ¬Passes (.error e) ∧ c'.scan = c.scan ∨ Passes (.error e) ∧ c'.scan.1 ≠ .error e := by
  obtain ⟨g, u, f, n, hrest, hg, hzero, hl, rfl⟩ := scan_eq_error h
  have hgap : c.skipGap = ⟨u, c.pos.after g⟩ := by
    obtain ⟨rest, pos⟩ := c
    subst hrest
    rw [skipGap, Scan.gapLength_gap hg, hzero, Nat.add_zero, skip_length]
  have hc' : c' = (⟨u, c.pos.after g⟩ : Cursor).skip n := by
    have hsecond := congrArg Prod.snd h
    simpa only [scan, hgap, hl] using hsecond.symm
  rcases Scan.lexeme_error_cases hl with ⟨b, rfl, rfl⟩ | ⟨hf, hu, hn⟩
  · have hstays : c'.skipGap = c.skipGap := by
      rw [hc', hgap, skipGap]
      exact congrArg (Cursor.skip ⟨u, c.pos.after g⟩) hzero
    exact .inl ⟨not_passes_invalidCharacter b _, by rw [scan, scan, hstays]⟩
  · refine .inr ⟨⟨f, _, hf, rfl⟩, fun hagain => ?_⟩
    unfold scan at hagain
    dsimp only at hagain
    split at hagain
    · cases hagain
    · have hpos := Fault.pos_of_error_eq (Except.error.inj hagain).symm
      rw [hc'] at hpos
      exact pos_skipGap_skip_ne hu _ hn hpos

end Cursor

/-! ## Requests to a reader -/

namespace Reader

/-- What a reader can be asked. -/
inductive Request where
  /-- To look at the next token. -/
  | peek
  /-- Whether the next token is the end of the input. -/
  | atEnd
  /-- To take the next token. -/
  | next
  deriving DecidableEq

/-- What a reader says. -/
inductive Answer where
  | token (result : Except Error Token)
  | ended (result : Except Error Bool)

/-- The answer to a request, and the reader after it. -/
def ask (r : Reader) : Request → Answer × Reader
  | .peek => (.token r.peek.1, r.peek.2)
  | .atEnd => (.ended r.atEnd.1, r.atEnd.2)
  | .next => (.token r.next.1, r.next.2)

/-- The reader after some requests. -/
def after (r : Reader) (qs : List Request) : Reader := qs.foldl (fun r q => (r.ask q).2) r

/-- What is read after `n` tokens if tokens are only taken. -/
def nth (r : Reader) (n : Nat) : Except Error Token := (r.after (List.replicate n .next)).next.1

/-- What a request is to be told when `result` comes next. -/
def Request.answer (result : Except Error Token) : Request → Answer
  | .atEnd => .ended (result.map fun t => t.lexeme == .endOfInput)
  | .peek | .next => .token result

/-- A request after some others is served as if nobody had looked: one for a token gets what `plain`
has for it, and another one is told what the next request for a token would get. -/
def Serves (r : Reader) (plain : Nat → Except Error Token) (before : List Request) (q : Request) :
    Prop :=
  let asked := (r.after before).ask q
  (q = .next → asked.1 = .token (plain (before.count .next))) ∧
    (q ≠ .next → asked.1 = q.answer asked.2.next.1)

/-- Looking changes nothing among some requests: those for a token get what they would get by
themselves, and the others are told what is read next. -/
def Transparent (r : Reader) (qs : List Request) : Prop :=
  ∀ before q rest, qs = before ++ q :: rest → r.Serves r.nth before q

/-! ## Readers at a place -/

/-- The reader stands where the cursor does: it has not looked at the next token, or it has and
remembers it. -/
def At (c : Cursor) (r : Reader) : Prop :=
  match r.peeked with
  | none => r.cursor.scan = c.scan
  | some t => c.scan = (.ok t, r.cursor)

variable {c : Cursor} {r : Reader}

theorem At.next (h : At c r) : r.next = (c.scan.1, ⟨c.scan.2, none⟩) := by
  obtain ⟨cursor, peeked⟩ := r
  cases peeked with
  | none =>
    have hscan : cursor.scan = c.scan := h
    simp only [Reader.next, Reader.scan, hscan]
  | some t =>
    have hscan : c.scan = (.ok t, cursor) := h
    simp only [Reader.next, hscan]

theorem At.peek_token (h : At c r) {t : Token} {c' : Cursor} (hscan : c.scan = (.ok t, c')) :
    r.peek = (.ok t, ⟨c', some t⟩) := by
  obtain ⟨cursor, peeked⟩ := r
  cases peeked with
  | none =>
    have hcursor : cursor.scan = (.ok t, c') := h.trans hscan
    simp only [Reader.peek, hcursor]
  | some u =>
    have hcursor : (Except.ok u, cursor) = (.ok t, c') := Eq.trans (Eq.symm h) hscan
    cases hcursor
    rfl

theorem At.peek_fault (h : At c r) {e : Error} {c' : Cursor} (hscan : c.scan = (.error e, c')) :
    r.peek = (.error e, ⟨c', none⟩) := by
  obtain ⟨cursor, peeked⟩ := r
  cases peeked with
  | none =>
    have hcursor : cursor.scan = (.error e, c') := h.trans hscan
    simp only [Reader.peek, hcursor]
  | some u =>
    have hcursor : (Except.ok u, cursor) = (.error e, c') := Eq.trans (Eq.symm h) hscan
    cases hcursor

/-- Whoever looks is told what comes next. The reader stays where it is, unless it meets a fault
that scanning passes over: then something else comes next. -/
theorem At.ask (h : At c r) {q : Request} (hq : q ≠ .next) :
    (r.ask q).1 = q.answer c.scan.1 ∧ (¬Passes c.scan.1 ∧ At c (r.ask q).2 ∨
      Passes c.scan.1 ∧ (r.ask q).2.next.1 ≠ c.scan.1) := by
  have hask : r.ask q = (q.answer r.peek.1, r.peek.2) := by
    cases q with
    | next => exact absurd rfl hq
    | peek | atEnd => rfl
  rw [hask]
  rcases hscan : c.scan with ⟨result, c'⟩
  cases result with
  | ok t =>
    rw [h.peek_token hscan]
    refine ⟨rfl, .inl ⟨?_, hscan⟩⟩
    rintro ⟨f, pos, -, hpasses⟩
    cases hpasses
  | error e =>
    rw [h.peek_fault hscan]
    refine ⟨rfl, (Cursor.scan_after_error hscan).imp (fun hagain => ?_) fun hpassed => ?_⟩
    · exact ⟨hagain.1, hagain.2⟩
    · exact ⟨hpassed.1, hpassed.2⟩

/-! ## Sequences of requests -/

theorem Request.answer_inj {q : Request} (hq : q ≠ .next) {x y : Except Error Token} {e : Error}
    (hx : x = .error e) (h : q.answer x = q.answer y) : x = y := by
  subst hx
  cases q with
  | next => exact absurd rfl hq
  | peek => exact Answer.token.inj h
  | atEnd =>
    have hmap := Answer.ended.inj h
    cases y with
    | ok t => cases hmap
    | error e' => exact congrArg Except.error (Except.error.inj hmap)

theorem serves_next (h : At c r) (before : List Request) (q : Request) :
    r.Serves (⟨c, none⟩ : Reader).nth (.next :: before) q ↔
      (⟨c.scan.2, none⟩ : Reader).Serves (⟨c.scan.2, none⟩ : Reader).nth before q := by
  have hafter : r.after (.next :: before) = (⟨c.scan.2, none⟩ : Reader).after before :=
    congrArg (fun x : Except Error Token × Reader => x.2.after before) h.next
  unfold Serves
  rw [hafter, List.count_cons_self]
  exact Iff.rfl

theorem serves_look {q : Request} (hq : q ≠ .next) (r : Reader) (plain : Nat → Except Error Token)
    (before : List Request) (q' : Request) :
    r.Serves plain (q :: before) q' ↔ (r.ask q).2.Serves plain before q' := by
  unfold Serves
  rw [List.count_cons_of_ne hq]
  exact Iff.rfl

/-- What holds of every request holds of the first one and of those after it. -/
theorem forall_split_cons {P : List Request → Request → Prop} {q : Request} {qs : List Request} :
    (∀ before q' rest, q :: qs = before ++ q' :: rest → P before q') ↔
      P [] q ∧ ∀ before q' rest, qs = before ++ q' :: rest → P (q :: before) q' := by
  constructor
  · intro h
    exact ⟨h [] q qs rfl, fun before q' rest hqs => h (q :: before) q' rest (by rw [hqs]; rfl)⟩
  · rintro ⟨hhead, htail⟩ before q' rest hqs
    cases before with
    | nil =>
      cases hqs
      exact hhead
    | cons b before =>
      injection hqs with hb hqs
      subst hb
      exact htail before q' rest hqs

/-- From where a reader stands, requests are served as if nobody looked just if none of them looks
at a fault that scanning passes over. -/
theorem At.serves_iff (h : At c r) (qs : List Request) :
    (∀ before q rest, qs = before ++ q :: rest →
      r.Serves (⟨c, none⟩ : Reader).nth before q) ↔
    ∀ before q rest, qs = before ++ q :: rest → q ≠ .next →
      ¬Passes ((⟨c, none⟩ : Reader).nth (before.count .next)) := by
  induction qs generalizing c r with
  | nil => simp
  | cons q qs ih =>
    rw [forall_split_cons, forall_split_cons]
    by_cases hq : q = .next
    · -- Whatever was looked at before, the token that is taken is the next one of the cursor.
      subst hq
      have hfirst : r.Serves (⟨c, none⟩ : Reader).nth [] .next := by
        refine ⟨fun _ => ?_, fun hne => absurd rfl hne⟩
        exact congrArg (fun x : Except Error Token × Reader => Answer.token x.1) h.next
      have hat : At c.scan.2 (⟨c.scan.2, none⟩ : Reader) := rfl
      simp only [hfirst, true_and, serves_next h, ih hat, List.count_cons_self, ne_eq,
        not_true_eq_false, false_implies]
      exact Iff.rfl
    · have hzero : (⟨c, none⟩ : Reader).nth (List.count Request.next []) = c.scan.1 := rfl
      obtain ⟨hanswer, ⟨hpasses, hat⟩ | ⟨hpasses, hmoved⟩⟩ := h.ask hq
      · have hfirst : r.Serves (⟨c, none⟩ : Reader).nth [] q := by
          refine ⟨fun heq => absurd heq hq, fun _ => hanswer.trans ?_⟩
          rw [show ((r.after []).ask q).2 = (r.ask q).2 from rfl, hat.next]
        simp only [hfirst, true_and, serves_look hq, ih hat, List.count_cons_of_ne hq, hzero,
          hpasses, not_false_eq_true, implies_true]
      · -- The request says what the cursor has, and after it something else comes.
        obtain ⟨f, pos, hf, hfault⟩ := hpasses
        constructor
        · rintro ⟨⟨-, hlook⟩, -⟩
          have hsame := hanswer.symm.trans (hlook hq)
          exact absurd (Request.answer_inj hq hfault hsame).symm hmoved
        · rintro ⟨hpassed, -⟩
          exact absurd ⟨f, pos, hf, hfault⟩ (hpassed hq)

/-- Looking at tokens changes nothing of what is read, and tells what is read next, just if nobody
looks where the plain sequence of tokens has a malformed number or a string that is never closed.
-/
theorem transparent_iff (source : Text) (qs : List Request) :
    (ofSource source).Transparent qs ↔ ∀ before q rest, qs = before ++ q :: rest → q ≠ .next →
      ¬Passes ((ofSource source).nth (before.count .next)) :=
  At.serves_iff (r := ofSource source) (c := Cursor.ofSource source) rfl qs

/-- Whoever looks at a string that is never closed is told of it, and then reads the end of the
input. -/
theorem not_transparent_openString :
    ¬(ofSource (bytes "\"a")).Transparent [.peek, .next] := by
  intro h
  have hnext := (h [.peek] .next [] rfl).1 rfl
  cases hnext

end Reader

end Mycel
