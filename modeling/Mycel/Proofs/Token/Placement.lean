import Mathlib.Data.List.Induction
import Mycel.Proofs.Token.Layout
import Mycel.Proofs.Token.Literals
import Mycel.Token.Reader

/-!
# What the tokens of a source cover

A reader that is asked for one token after another goes through its whole source. Each token comes
from a slice of it, and the slices are in order. Between them are gaps only, so no byte is left out
(`Covers`). After the last token is a gap up to the end, or a gap and a fault (`Ending`).

Slices, positions and the escapes in strings are described here without the scanner: a position by
the line feeds before an offset (`Pos.IsAt`), a lexeme by the bytes that spell it
(`Lexeme.SpelledBy`).
-/

namespace Mycel

/-! ## Positions of offsets -/

/-- The position of an offset: its line is one more than the line feeds before it, and its column is
the distance from the last of them. -/
def Pos.IsAt (pos : Pos) (source : Text) (n : Nat) : Prop :=
  pos.line = 1 + (source.take n).count Text.newline ∧
    (Text.newline ∉ source.take n ∧ pos.column = n + 1 ∨
      ∃ k < n, source[k]? = some Text.newline ∧
        (∀ j, k < j → j < n → source[j]? ≠ some Text.newline) ∧ pos.column = n - k)

theorem Pos.isAt_next_newline {pos : Pos} {u : Text} (v : Text)
    (h : pos.IsAt (u ++ Text.newline :: v) u.length) :
    (pos.next Text.newline).IsAt (u ++ Text.newline :: v) (u.length + 1) := by
  have htake : (u ++ Text.newline :: v).take (u.length + 1) = u ++ [Text.newline] :=
    List.take_length_add_append 1
  obtain ⟨hline, -⟩ := h
  rw [List.take_left] at hline
  refine ⟨?_, .inr ⟨u.length, Nat.lt_succ_self _, by simp, fun j hj hj' => by omega, ?_⟩⟩
  · rw [htake, List.count_append, List.count_singleton_self, next, if_pos rfl]
    push_cast
    omega
  · rw [next, if_pos rfl]
    push_cast
    omega

theorem Pos.isAt_next {pos : Pos} {u : Text} {b : UInt8} (hb : b ≠ Text.newline) (v : Text)
    (h : pos.IsAt (u ++ b :: v) u.length) : (pos.next b).IsAt (u ++ b :: v) (u.length + 1) := by
  have htake : (u ++ b :: v).take (u.length + 1) = u ++ [b] := List.take_length_add_append 1
  obtain ⟨hline, hcolumn⟩ := h
  rw [List.take_left] at hline hcolumn
  unfold IsAt
  rw [htake, next, if_neg hb]
  refine ⟨?_, ?_⟩
  · rw [List.count_append, List.count_eq_zero_of_not_mem (mt List.mem_singleton.1 hb.symm),
      Nat.add_zero]
    exact hline
  · rcases hcolumn with ⟨hnone, hcolumn⟩ | ⟨k, hk, hnewline, hlast, hcolumn⟩
    · refine .inl ⟨by simp [hnone, hb.symm], ?_⟩
      push_cast
      omega
    · refine .inr ⟨k, by omega, hnewline, fun j hj hj' => ?_, ?_⟩
      · by_cases hju : j = u.length
        · subst hju
          simpa using hb
        · exact hlast j hj (by omega)
      · push_cast
        omega

/-- Counting byte by byte leads to the position of an offset. -/
theorem Pos.isAt_after (u v : Text) : (start.after u).IsAt (u ++ v) u.length := by
  induction u using List.reverseRecOn generalizing v with
  | nil => exact ⟨rfl, .inl ⟨List.not_mem_nil, rfl⟩⟩
  | append_singleton u b ih =>
    have hnext : start.after (u ++ [b]) = (start.after u).next b := by
      rw [after_append]
      rfl
    have hu := ih (b :: v)
    rw [hnext, List.append_assoc, List.singleton_append, List.length_append, List.length_singleton]
    by_cases hb : b = Text.newline
    · subst hb
      exact isAt_next_newline v hu
    · exact isAt_next hb v hu

/-! ## Spellings -/

/-- A digit, and then digits with at most one point among them. -/
def Text.IsNumeral (w : Text) : Prop :=
  (∃ b t, w = b :: t ∧ Decimal.isDigit b = true) ∧
    (∀ b ∈ w, Decimal.isDigit b = true ∨ b = pointSign) ∧ w.count pointSign ≤ 1

/-- The bytes that spell a lexeme. -/
inductive Lexeme.SpelledBy : Lexeme → Text → Prop
  | number {w : Text} {x : Float} (hw : w.IsNumeral) (hx : Decimal.ofLiteral? w = some x) :
      SpelledBy (.number w x) w
  | string {inside value : Text} (h : Unescapes inside value) :
      SpelledBy (.string value) (quoteSign :: (inside ++ [quoteSign]))
  | identifier {x : Text} (hx : x.IsName) : SpelledBy (.identifier x) x
  | keyword (k : Keyword) : SpelledBy (.keyword k) k.spelling
  | operator {w : Text} (hne : w ≠ []) (hw : ∀ b ∈ w, isOperatorByte b = true) :
      SpelledBy (.operator w) w
  | mark (m : Mark) : SpelledBy (.mark m) [m.byte]

namespace Scan

theorem isNumeral_of_length {p : Bool} {t : Text} (h : numberLength p t = t.length) :
    (∀ b ∈ t, Decimal.isDigit b = true ∨ b = pointSign) ∧
      t.count pointSign ≤ if p then 0 else 1 := by
  fun_induction numberLength p t with
  | case1 => simp
  | case2 p b rest hdigit ih =>
    obtain ⟨hrest, hcount⟩ := ih (Nat.succ.inj h)
    have hne : b ≠ pointSign := by
      rintro rfl
      exact absurd hdigit (by decide)
    exact ⟨List.forall_mem_cons.2 ⟨.inl hdigit, hrest⟩, by rwa [List.count_cons_of_ne hne]⟩
  | case3 p b rest hdigit hb ih =>
    obtain ⟨hrest, hcount⟩ := ih (Nat.succ.inj h)
    obtain ⟨hpoint, hp⟩ := Bool.and_eq_true_iff.1 hb
    obtain rfl : b = pointSign := beq_iff_eq.1 hpoint
    refine ⟨List.forall_mem_cons.2 ⟨.inr rfl, hrest⟩, ?_⟩
    rw [List.count_cons_self, (Bool.not_eq_true' p).mp hp]
    simpa using hcount
  | case4 p b rest hdigit hb => cases h

end Scan

theorem Keyword.spelling_of_ofSpelling? {t : Text} {k : Keyword}
    (h : Keyword.ofSpelling? t = some k) : k.spelling = t := by
  have hfound := List.find?_some h
  simpa using hfound

namespace Lexeme

theorem Written.spelledBy {l : Lexeme} {w : Text} (h : l.Written w) : l.SpelledBy w := by
  cases h with
  | @number b t x hb ht hx =>
    obtain ⟨hform, hpoint⟩ := Scan.isNumeral_of_length ht
    exact .number ⟨⟨b, t, rfl, hb⟩, hform, by simpa using hpoint⟩ hx
  | @string value body h =>
    obtain ⟨inside, rest, rfl, hlength, hinside⟩ := Scan.stringBody?_eq_some h
    rw [List.length_append, List.length_cons] at hlength
    obtain rfl : rest = [] := List.length_eq_zero_iff.1 (by omega)
    exact .string hinside
  | @word b t hb ht =>
    cases hk : Keyword.ofSpelling? (b :: t) with
    | none =>
      rw [Scan.word, hk]
      exact .identifier ⟨⟨b, t, rfl, hb, ht⟩, hk⟩
    | some k =>
      rw [Scan.word, hk, ← Keyword.spelling_of_ofSpelling? hk]
      exact .keyword k
  | operator h => exact .operator (List.cons_ne_nil _ _) h
  | mark m => exact .mark m

theorem SpelledBy.written {l : Lexeme} {w : Text} (h : l.SpelledBy w) : l.Written w := by
  cases h with
  | number hw hx =>
    obtain ⟨⟨b, t, rfl, hb⟩, hform, hpoint⟩ := hw
    exact .number hb (Scan.numberLength_eq hform hpoint) hx
  | string h => exact Scan.written_of_unescapes h
  | identifier hx => exact written_name hx
  | keyword k => exact written_keyword k
  | operator hne hw =>
    obtain ⟨b, t, rfl⟩ := List.exists_cons_of_ne_nil hne
    exact .operator hw
  | mark m => exact .mark m

/-- All lexemes but strings carry the bytes that spell them. -/
theorem SpelledBy.literal {l : Lexeme} {w : Text} (h : l.SpelledBy w)
    (hl : ∀ value, l ≠ .string value) : l.literal = w := by
  cases h with
  | string _ => exact absurd rfl (hl _)
  | _ => rfl

end Lexeme

/-! ## Faults -/

/-- A byte that neither a token nor a gap starts with. -/
def Foreign (b : UInt8) : Prop :=
  isBlank b = false ∧ b ≠ commentSign ∧ b ≠ quoteSign ∧ Decimal.isDigit b = false ∧
    isNameStart b = false ∧ isOperatorByte b = false ∧ ∀ m : Mark, m.byte ≠ b

/-- What is wrong at the front of a text: a foreign byte, a number that no double is near, or a
quote without another one to close it. -/
inductive Fault.Begins : Fault → Text → Prop
  | character {b : UInt8} (hb : Foreign b) (rest : Text) : Begins (.invalidCharacter b) (b :: rest)
  | number {w rest : Text} (hw : w.IsNumeral) (hrest : ∀ x, (Lexeme.number w x).Apart rest)
      (hx : Decimal.ofLiteral? w = none) : Begins (.malformedNumber w) (w ++ rest)
  | string {t : Text} (h : ∀ inside value rest, t = inside ++ quoteSign :: rest →
      ¬Unescapes inside value) : Begins (.unterminatedString (quoteSign :: t)) (quoteSign :: t)

theorem Mark.byte_ne_of_ofByte? {b : UInt8} (h : Mark.ofByte? b = none) (m : Mark) :
    m.byte ≠ b := by
  have hall := List.find?_eq_none.1 h m (by cases m <;> decide)
  simpa using hall

theorem Scan.begins_of_lexeme {t : Text} {f : Fault} {n : Nat} (h : lexeme t = .error (f, n))
    (hgap : gapLength false t = 0) : f.Begins t ∧ f.cause? = none := by
  refine ⟨?_, (lexeme_error h).2⟩
  cases t with
  | nil => cases h
  | cons b rest =>
    simp only [lexeme] at h
    split_ifs at h with hquote hdigit hname hop
    · -- a string
      obtain rfl : b = quoteSign := beq_iff_eq.1 hquote
      split at h
      · cases h
      · rename_i hnone
        cases h
        refine .string fun inside value rest hrest hinside => ?_
        rw [hrest, stringBody?_of_unescapes hinside] at hnone
        cases hnone
    · -- a number
      obtain ⟨v, u, hsplit, hu, hlen, hself⟩ := numberLength_digit hdigit rest
      have htake : (b :: rest).take (b :: v).length = b :: v := by rw [hsplit, List.take_left]
      rw [hlen, htake] at h
      split at h
      · cases h
      · rename_i hx
        cases h
        obtain ⟨hform, hpoint⟩ := isNumeral_of_length hself
        rw [hsplit]
        refine .number ⟨⟨b, v, rfl, hdigit⟩, hform, by simpa using hpoint⟩ (fun x c hc => ?_) hx
        simpa [Lexeme.continuesWith] using hu c hc
    · split at h
      · cases h
      · cases h
    · split at h
      · cases h
      · rename_i hmark
        cases h
        have hblank : isBlank b = false ∧ b ≠ commentSign := by
          simp only [gapLength, Bool.false_eq_true, if_false] at hgap
          split_ifs at hgap with hblank hcomment
          exact ⟨Bool.eq_false_iff.2 hblank, by simpa using hcomment⟩
        exact .character ⟨hblank.1, hblank.2, by simpa using hquote, Bool.eq_false_iff.2 hdigit,
          Bool.eq_false_iff.2 hname, Bool.eq_false_iff.2 hop, Mark.byte_ne_of_ofByte? hmark⟩ rest

theorem Cursor.begins_of_scan {c c' : Cursor} {e : Error} (h : c.scan = (.error e, c')) :
    ∃ (g u : Text) (f : Fault), c.rest = g ++ u ∧ Gap g ∧ f.Begins u ∧
      e = .report (f.diagnostic (c.pos.after g)) := by
  obtain ⟨g, u, f, n, hrest, hg, hzero, hl, rfl⟩ := scan_eq_error h
  obtain ⟨hbegins, hcause⟩ := Scan.begins_of_lexeme hl hzero
  exact ⟨g, u, f, hrest, hg, hbegins, by simp [Fault.error, hcause]⟩

/-! ## Slices of a source -/

/-- A token, and where its bytes start and stop. -/
structure Span where
  token : Token
  start : Nat
  stop : Nat

/-- The token comes from these bytes of the source, and could not go on after them. -/
structure Span.From (source : Text) (s : Span) : Prop where
  ordered : s.start < s.stop
  within : s.stop ≤ source.length
  pos : s.token.pos.IsAt source s.start
  spelled : s.token.lexeme.SpelledBy (source.extract s.start s.stop)
  literal : (∀ value, s.token.lexeme ≠ .string value) →
    s.token.lexeme.literal = source.extract s.start s.stop
  maximal : ∀ b, source[s.stop]? = some b → s.token.lexeme.continuesWith b = false

/-- One token after another, from an offset to the last stop, with gaps between them. -/
inductive Covers (source : Text) : Nat → List Span → Nat → Prop
  | nil {n : Nat} : Covers source n [] n
  | cons {n m : Nat} {s : Span} {spans : List Span} (hle : n ≤ s.start)
      (hgap : Gap (source.extract n s.start)) (hs : s.From source)
      (rest : Covers source s.stop spans m) : Covers source n (s :: spans) m

/-- A gap up to the end of a source, where a comment may be open. -/
inductive Trailing : Text → Prop
  | gap {g : Text} (hg : Gap g) : Trailing g
  | comment {g body : Text} (hg : Gap g) (hbody : Text.newline ∉ body) :
      Trailing (g ++ commentSign :: body)

/-- What there is from an offset on, where no further token is. -/
inductive Ending (source : Text) (m : Nat) : Except Error Token → Prop
  | finish {pos : Pos} (hm : m ≤ source.length) (hgap : Trailing (source.drop m))
      (hpos : pos.IsAt source source.length) : Ending source m (.ok ⟨.endOfInput, pos⟩)
  | fault {n : Nat} {f : Fault} {pos : Pos} (hm : m ≤ n) (hgap : Gap (source.extract m n))
      (hf : f.Begins (source.drop n)) (hpos : pos.IsAt source n) :
      Ending source m (.error (.report (f.diagnostic pos)))

theorem extract_append (u g v : Text) :
    (u ++ (g ++ v)).extract u.length (u.length + g.length) = g := by
  simp [List.extract]

theorem trailing_blank {b : UInt8} {t : Text} (hb : isBlank b = true) (h : Trailing t) :
    Trailing (b :: t) := by
  cases h with
  | gap hg => exact .gap (.blank hb hg)
  | comment hg hbody => exact .comment (.blank hb hg) hbody

theorem trailing_comment {body t : Text} (hbody : Text.newline ∉ body) (h : Trailing t) :
    Trailing (commentSign :: (body ++ Text.newline :: t)) := by
  cases h with
  | gap hg => exact .gap (.comment hbody hg)
  | comment hg hopen =>
    have htrailing := Trailing.comment (.comment hbody hg) hopen
    simpa using htrailing

/-- What a line feed makes a gap is one up to the end of a source. -/
theorem trailing_of_closed {t : Text} (h : Gap (t ++ [Text.newline])) : Trailing t := by
  generalize hclosed : t ++ [Text.newline] = closed at h
  induction h generalizing t with
  | nil => simp at hclosed
  | blank hb hgap ih =>
    cases t with
    | nil => exact .gap .nil
    | cons c t =>
      cases hclosed
      exact trailing_blank hb (ih rfl)
  | @comment body u hbody hgap ih =>
    cases u using List.reverseRecOn with
    | nil =>
      have heq : t ++ [Text.newline] = (commentSign :: body) ++ [Text.newline] := hclosed
      rw [List.append_inj_left' heq rfl]
      exact .comment .nil hbody
    | append_singleton u b =>
      have heq : t ++ [Text.newline] =
          (commentSign :: (body ++ Text.newline :: u)) ++ [b] := by simpa using hclosed
      obtain ⟨rfl, hb⟩ := List.append_inj' heq rfl
      cases hb
      exact trailing_comment hbody (ih rfl)

/-! ## Reading a source -/

/-- The tokens that a reader gives when it is asked again and again, up to the end of the input or
to an error. -/
inductive Reader.Gives : Reader → List Token → Except Error Token → Prop
  | finish {r r' : Reader} {pos : Pos} (h : r.next = (.ok ⟨.endOfInput, pos⟩, r')) :
      Gives r [] (.ok ⟨.endOfInput, pos⟩)
  | fault {r r' : Reader} {e : Error} (h : r.next = (.error e, r')) : Gives r [] (.error e)
  | token {r r' : Reader} {t : Token} {ts : List Token} {last : Except Error Token}
      (h : r.next = (.ok t, r')) (ht : t.lexeme ≠ .endOfInput) (rest : Gives r' ts last) :
      Gives r (t :: ts) last

theorem Reader.next_of_scan {c c' : Cursor} {x : Except Error Token} (h : c.scan = (x, c')) :
    (⟨c, none⟩ : Reader).next = (x, ⟨c', none⟩) := by
  simp only [next, scan, h]

/-- The slice of a token that is scanned after the bytes `u`. -/
theorem Cursor.span_of_scan {c c' : Cursor} {t : Token} (h : c.scan = (.ok t, c'))
    (ht : t.lexeme ≠ .endOfInput) {u : Text} (hpos : c.pos = Pos.start.after u) :
    ∃ g w, c.rest = g ++ (w ++ c'.rest) ∧ Gap g ∧ c'.pos = Pos.start.after (u ++ (g ++ w)) ∧
      Span.From (u ++ c.rest) ⟨t, u.length + g.length, u.length + g.length + w.length⟩ := by
  obtain ⟨g, w, hrest, hg, hw, hapart, htpos, hcpos⟩ := scan_eq_token h ht
  have htpos : t.pos = Pos.start.after (u ++ g) := by rw [htpos, hpos, Pos.after_append]
  have hcpos : c'.pos = Pos.start.after (u ++ (g ++ w)) := by
    rw [hcpos, htpos, ← List.append_assoc, Pos.after_append _ (u ++ g)]
  have hsource : u ++ c.rest = (u ++ g) ++ (w ++ c'.rest) := by rw [hrest, List.append_assoc]
  have hlength : u.length + g.length = (u ++ g).length := List.length_append.symm
  have hslice := extract_append (u ++ g) w c'.rest
  refine ⟨g, w, hrest, hg, hcpos, ?_⟩
  rw [hsource, hlength]
  constructor
  · obtain ⟨b, v, rfl, -⟩ := hw.start
    simp
  · simp only [List.length_append]
    omega
  · rw [htpos]
    exact Pos.isAt_after (u ++ g) (w ++ c'.rest)
  · rw [hslice]
    exact hw.spelledBy
  · rw [hslice]
    exact hw.spelledBy.literal
  · intro b hb
    refine hapart b ?_
    rw [← List.append_assoc, ← List.length_append, List.getElem?_append_right (Nat.le_refl _),
      Nat.sub_self] at hb
    rwa [List.head?_eq_getElem?]

/-- From any place on, a reader covers the rest of its source. -/
theorem Cursor.covers {c : Cursor} {u : Text} (hpos : c.pos = Pos.start.after u) :
    ∃ spans m last, (⟨c, none⟩ : Reader).Gives (spans.map (·.token)) last ∧
      Covers (u ++ c.rest) u.length spans m ∧ Ending (u ++ c.rest) m last := by
  induction hn : c.rest.length using Nat.strongRecOn generalizing c u with
  | ind n ih =>
    rcases Stream.scan_cases c with ⟨pos, c', h⟩ | ⟨t, c', h, ht⟩ | ⟨e, c', h⟩
    · obtain ⟨rfl, hclosed⟩ := scan_eq_finish h
      refine ⟨[], u.length, _, .finish (Reader.next_of_scan h), .nil, .finish (by simp) ?_ ?_⟩
      · rw [List.drop_left]
        exact trailing_of_closed hclosed
      · have hend := Pos.isAt_after (u ++ c.rest) []
        rwa [List.append_nil, Pos.after_append, ← hpos] at hend
    · obtain ⟨g, w, hrest, hg, hpos', hspan⟩ := span_of_scan h ht hpos
      obtain ⟨spans, m, last, hgives, hcovers, hending⟩ :=
        ih c'.rest.length (hn ▸ length_scan h ht) hpos' rfl
      have hsource : u ++ (g ++ w) ++ c'.rest = u ++ c.rest := by simp [hrest]
      rw [hsource] at hcovers hending
      have hlength : (u ++ (g ++ w)).length = u.length + g.length + w.length := by
        simp [Nat.add_assoc]
      rw [hlength] at hcovers
      refine ⟨_ :: spans, m, last, .token (Reader.next_of_scan h) ht hgives,
        .cons (Nat.le_add_right _ _) ?_ hspan hcovers, hending⟩
      rw [hrest, extract_append]
      exact hg
    · obtain ⟨g, v, f, hrest, hg, hbegins, rfl⟩ := begins_of_scan h
      have hsource : u ++ c.rest = (u ++ g) ++ v := by rw [hrest, List.append_assoc]
      refine ⟨[], u.length, _, .fault (Reader.next_of_scan h), .nil, ?_⟩
      refine .fault (Nat.le_add_right u.length g.length) ?_ ?_ ?_
      · rw [hrest, extract_append]
        exact hg
      · rw [hsource, ← List.length_append, List.drop_left]
        exact hbegins
      · rw [hsource, ← List.length_append, hpos, ← Pos.after_append]
        exact Pos.isAt_after (u ++ g) v

/-- Every source is covered by the tokens that a reader gives, one after another, and the gaps
between them, up to its end or to a fault. -/
theorem Reader.covers_ofSource (source : Text) : ∃ spans m last,
    (Reader.ofSource source).Gives (spans.map (·.token)) last ∧ Covers source 0 spans m ∧
      Ending source m last :=
  Cursor.covers (c := Cursor.ofSource source) (u := []) rfl

end Mycel
