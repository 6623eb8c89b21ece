import Mycel.Proofs.Syntax.Reading

/-!
# The tokens of a source

`Cursor.Scans` is what it means to scan a source up to its end, one token after another. A token
takes at least one byte, so the bound that `Stream.ofSource` puts on their number is never reached.
-/

namespace Mycel

namespace Cursor

/-- Scanning from a cursor gives some tokens, and then the end of the input. -/
inductive Scans : Cursor → List Token → Prop
  | finish {c c' : Cursor} {pos : Pos} (h : c.scan = (.ok ⟨.endOfInput, pos⟩, c')) : Scans c []
  | token {c c' : Cursor} {t : Token} {ts : List Token} (h : c.scan = (.ok t, c'))
      (ht : t.lexeme ≠ .endOfInput) (rest : Scans c' ts) : Scans c (t :: ts)

end Cursor

theorem Fault.diagnostic?_error (f : Fault) (pos : Pos) :
    (f.error pos).diagnostic? = some (f.diagnostic pos) := by
  unfold Fault.error
  split <;> rfl

namespace Scan

/-- Only the end of the input takes no byte, and only the end of a text is the end of the input. -/
theorem lexeme_pos {t : Text} {l : Lexeme} {n : Nat} (h : lexeme t = .ok (l, n))
    (hl : l ≠ .endOfInput) : t ≠ [] ∧ 0 < n := by
  cases t with
  | nil =>
    cases h
    exact absurd rfl hl
  | cons b rest =>
    refine ⟨List.cons_ne_nil _ _, ?_⟩
    simp only [lexeme] at h
    split_ifs at h with hquote hdigit hname hop
    · split at h
      · cases h
        exact Nat.succ_pos _
      · cases h
    · split at h
      · cases h
        simp [numberLength, hdigit]
      · cases h
    · cases h
      simp [isNamePart, hname]
    · split at h
      · cases h
        exact Nat.one_pos
      · cases h
        simp [hop]
    · split at h
      · cases h
        exact Nat.one_pos
      · cases h

theorem lexeme_error {t : Text} {fault : Fault} {n : Nat} (h : lexeme t = .error (fault, n)) :
    fault.code = .lex ∧ fault.cause? = none := by
  cases t with
  | nil => cases h
  | cons b rest =>
    simp only [lexeme] at h
    split_ifs at h
    · split at h
      · cases h
      · cases h
        exact ⟨rfl, rfl⟩
    · split at h
      · cases h
      · cases h
        exact ⟨rfl, rfl⟩
    · split at h
      · cases h
      · cases h
    · split at h
      · cases h
      · cases h
        exact ⟨rfl, rfl⟩

end Scan

namespace Cursor

theorem length_skip_le (c : Cursor) (n : Nat) : (c.skip n).rest.length ≤ c.rest.length := by
  simp [skip]

/-- A token takes at least one byte. -/
theorem length_scan {c c' : Cursor} {t : Token} (h : c.scan = (.ok t, c'))
    (ht : t.lexeme ≠ .endOfInput) : c'.rest.length < c.rest.length := by
  have hgap := c.length_skip_le (Scan.gapLength false c.rest)
  simp only [scan] at h
  split at h
  · rename_i l n hl
    cases h
    obtain ⟨hne, hn⟩ := Scan.lexeme_pos hl ht
    have hpos := List.length_pos_iff.2 hne
    simp only [skipGap] at hpos ⊢
    simp only [skip, List.length_drop] at hgap hpos ⊢
    omega
  · cases h

theorem scan_error {c c' : Cursor} {e : Error} (h : c.scan = (.error e, c')) :
    e.code? = some .lex := by
  simp only [scan] at h
  split at h
  · cases h
  · rename_i fault n hl
    cases h
    rw [Error.code?, Fault.diagnostic?_error, Option.map_some, Fault.diagnostic,
      (Scan.lexeme_error hl).1]

end Cursor

namespace Stream

/-- No token of the stream says that the input has ended. -/
def Proper (s : Stream) : Prop := ∀ t ∈ s.tokens, t.lexeme ≠ .endOfInput

variable {c c' : Cursor} {pos : Pos} {t : Token} {n : Nat}

theorem scanWithin_finish (h : c.scan = (.ok ⟨.endOfInput, pos⟩, c')) (n : Nat) :
    scanWithin (n + 1) c = .finish pos := by
  simp only [scanWithin, h]

theorem scanWithin_token (h : c.scan = (.ok t, c')) (ht : t.lexeme ≠ .endOfInput) (n : Nat) :
    scanWithin (n + 1) c = .token t (scanWithin n c') := by
  obtain ⟨l, pos⟩ := t
  simp only [scanWithin, h]
  cases l with
  | endOfInput => exact absurd rfl ht
  | _ => rfl

theorem scanWithin_broken {e : Error} (h : c.scan = (.error e, c')) (n : Nat) :
    scanWithin (n + 1) c = .broken e := by
  simp only [scanWithin, h]

/-- What scanning one token more comes to. -/
theorem scan_cases (c : Cursor) :
    (∃ pos c', c.scan = (.ok ⟨.endOfInput, pos⟩, c')) ∨
    (∃ t c', c.scan = (.ok t, c') ∧ t.lexeme ≠ .endOfInput) ∨
    ∃ e c', c.scan = (.error e, c') := by
  rcases h : c.scan with ⟨r, c'⟩
  cases r with
  | error e => exact .inr (.inr ⟨e, c', rfl⟩)
  | ok t =>
    obtain ⟨l, pos⟩ := t
    by_cases hl : l = .endOfInput
    · subst hl
      exact .inl ⟨pos, c', rfl⟩
    · exact .inr (.inl ⟨_, c', rfl, hl⟩)

theorem proper_scanWithin (n : Nat) (c : Cursor) : (scanWithin n c).Proper := by
  induction n generalizing c with
  | zero => exact List.forall_mem_nil _
  | succ n ih =>
    rcases scan_cases c with ⟨pos, c', h⟩ | ⟨t, c', h, ht⟩ | ⟨e, c', h⟩
    · rw [scanWithin_finish h]
      exact List.forall_mem_nil _
    · rw [scanWithin_token h ht]
      exact List.forall_mem_cons.2 ⟨ht, ih c'⟩
    · rw [scanWithin_broken h]
      exact List.forall_mem_nil _

theorem code_last_scanWithin {e : Error} (h : (scanWithin n c).last = .error e) :
    e.code? = some .lex := by
  induction n generalizing c with
  | zero => cases h
  | succ n ih =>
    rcases scan_cases c with ⟨pos, c', hc⟩ | ⟨t, c', hc, ht⟩ | ⟨e', c', hc⟩
    · rw [scanWithin_finish hc] at h
      cases h
    · rw [scanWithin_token hc ht] at h
      exact ih h
    · rw [scanWithin_broken hc] at h
      cases h
      exact Cursor.scan_error hc

theorem scanWithin_eq_iff (hn : c.rest.length < n) {ts : List Token} :
    (∃ pos, scanWithin n c = prepend ts (.finish pos)) ↔ c.Scans ts := by
  induction n generalizing c ts with
  | zero => omega
  | succ n ih =>
    constructor
    · rintro ⟨pos, h⟩
      rcases scan_cases c with ⟨p, c', hc⟩ | ⟨t, c', hc, ht⟩ | ⟨e, c', hc⟩
      · rw [scanWithin_finish hc] at h
        cases ts with
        | nil => exact .finish hc
        | cons t ts => cases h
      · have hlt := Cursor.length_scan hc ht
        rw [scanWithin_token hc ht] at h
        cases ts with
        | nil => cases h
        | cons u ts =>
          injection h with hu hrest
          subst hu
          exact .token hc ht ((ih (by omega)).1 ⟨pos, hrest⟩)
      · rw [scanWithin_broken hc] at h
        cases ts <;> cases h
    · intro h
      cases h with
      | @finish c c' pos hc => exact ⟨pos, scanWithin_finish hc n⟩
      | @token c c' t ts hc ht rest =>
        have hlt := Cursor.length_scan hc ht
        obtain ⟨pos, hrest⟩ := (ih (by omega)).2 rest
        exact ⟨pos, (scanWithin_token hc ht n).trans (congrArg (Stream.token t) hrest)⟩

/-- A source has tokens up to its end just if it can be scanned up to there. -/
theorem ofSource_eq_iff {source : Text} {ts : List Token} :
    (∃ pos, ofSource source = prepend ts (.finish pos)) ↔ (Cursor.ofSource source).Scans ts :=
  scanWithin_eq_iff (Nat.lt_succ_self _)

end Stream

end Mycel
