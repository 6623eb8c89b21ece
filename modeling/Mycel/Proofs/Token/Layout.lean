import Mycel.Proofs.Token.Positions
import Mycel.Proofs.Token.Spelling

/-!
# Gaps between tokens

Before a token is a gap: blanks, and comments with the line feeds that end them. With that, scanning
a token is to split a text into a gap, a written lexeme, and what is apart from it
(`Cursor.scan_token`, `Cursor.scan_eq_token`).

The tokens of a text depend on nothing that comes after them, as long as it is apart from the last
one. `Cursor.Takes.replace` says so; a line feed is apart from every lexeme.
-/

namespace Mycel

inductive Gap : Text → Prop
  | nil : Gap []
  | blank {b : UInt8} {t : Text} (hb : isBlank b = true) (ht : Gap t) : Gap (b :: t)
  | comment {body t : Text} (hbody : Text.newline ∉ body) (ht : Gap t) :
      Gap (commentSign :: (body ++ Text.newline :: t))

theorem Gap.newline : Gap [Text.newline] := .blank (by decide) .nil

/-- A text that is apart from every lexeme. -/
def Detached (t : Text) : Prop := ∀ l : Lexeme, l.Apart t

theorem detached_nil : Detached [] := fun l => l.apart_nil

theorem detached_cons {b : UInt8} (h : isNamePart b = false ∧ isOperatorByte b = false ∧
    Decimal.isDigit b = false ∧ (b == pointSign) = false) (t : Text) : Detached (b :: t) := by
  intro l
  rw [Lexeme.apart_cons]
  cases l <;> simp [Lexeme.continuesWith, h]

theorem detached_newline (t : Text) : Detached (Text.newline :: t) := detached_cons (by decide) t

namespace Scan

variable {t : Text}

theorem gapLength_comment {body : Text} (h : Text.newline ∉ body) (t : Text) :
    gapLength true (body ++ Text.newline :: t) = body.length + 1 + gapLength false t := by
  induction body with
  | nil =>
    simp only [List.nil_append, gapLength, bne_self_eq_false, if_true, List.length_nil]
    omega
  | cons b body ih =>
    have hne : (b != Text.newline) = true := by simpa using (List.ne_of_not_mem_cons h).symm
    have hbody := ih (List.not_mem_of_not_mem_cons h)
    simp only [List.cons_append, gapLength, hne, if_true, hbody, List.length_cons]
    omega

theorem gapLength_open (h : Text.newline ∉ t) : gapLength true t = t.length := by
  induction t with
  | nil => rfl
  | cons b t ih =>
    have hne : (b != Text.newline) = true := by simpa using (List.ne_of_not_mem_cons h).symm
    simp only [gapLength, hne, if_true, ih (List.not_mem_of_not_mem_cons h), List.length_cons]

theorem gapLength_gap {g : Text} (h : Gap g) (t : Text) :
    gapLength false (g ++ t) = g.length + gapLength false t := by
  induction h with
  | nil => simp
  | blank hb _ ih =>
    simp only [List.cons_append, gapLength, hb, Bool.false_eq_true, if_false, if_true, ih,
      List.length_cons]
    omega
  | @comment body g hbody _ ih =>
    have hsign : isBlank commentSign = false := by decide
    have hcomment := gapLength_comment hbody (g ++ t)
    simp only [List.cons_append, List.append_assoc, gapLength, hsign, beq_self_eq_true,
      Bool.false_eq_true, if_false, if_true, hcomment, ih, List.length_cons, List.length_append]
    omega

theorem lexeme_cons_ne (b : UInt8) (t : Text) (n : Nat) :
    lexeme (b :: t) ≠ .ok (.endOfInput, n) := by
  intro h
  simp only [lexeme] at h
  split_ifs at h
  · split at h <;> cases h
  · split at h <;> cases h
  · exact absurd (congrArg Prod.fst (Except.ok.inj h)) (Lexeme.word_ne_endOfInput _)
  · split at h <;> cases h
  · split at h <;> cases h

theorem gapLength_written {l : Lexeme} {w : Text} (h : l.Written w) (t : Text) :
    gapLength false (w ++ t) = 0 := by
  obtain ⟨b, w, rfl, hblank, hcomment⟩ := h.start
  simp [gapLength, hblank, hcomment]

/-- What is skipped before a token is a gap. At the end of a text it may be a comment that has not
ended, which a line feed makes a gap. -/
theorem gapLength_split (t : Text) : ∃ g rest, t = g ++ rest ∧ gapLength false t = g.length ∧
    Gap (g ++ [Text.newline]) ∧ (rest ≠ [] → Gap g) := by
  induction hlen : t.length using Nat.strongRecOn generalizing t with
  | ind n ih =>
    cases t with
    | nil => exact ⟨[], [], rfl, rfl, .newline, nofun⟩
    | cons b t =>
      rw [List.length_cons] at hlen
      by_cases hb : isBlank b = true
      · obtain ⟨g, rest, rfl, hg, hclosed, hgap⟩ := ih t.length (by omega) t rfl
        refine ⟨b :: g, rest, rfl, ?_, .blank hb hclosed, fun hrest => .blank hb (hgap hrest)⟩
        simp [gapLength, hb, hg]
      · by_cases hcomment : b = commentSign
        · subst hcomment
          have hstart : gapLength false (commentSign :: t) = gapLength true t + 1 := by
            simp [gapLength, hb]
          by_cases hnewline : Text.newline ∈ t
          · obtain ⟨body, u, rfl, hbody⟩ := List.eq_append_cons_of_mem hnewline
            simp only [List.length_append, List.length_cons] at hlen
            obtain ⟨g, rest, rfl, hg, hclosed, hgap⟩ := ih u.length (by omega) u rfl
            refine ⟨commentSign :: (body ++ Text.newline :: g), rest, by simp, ?_, ?_, ?_⟩
            · rw [hstart, gapLength_comment hbody, hg]
              simp only [List.length_cons, List.length_append]
              omega
            · simpa using Gap.comment hbody hclosed
            · exact fun hrest => .comment hbody (hgap hrest)
          · refine ⟨commentSign :: t, [], by simp, ?_, ?_, nofun⟩
            · rw [hstart, gapLength_open hnewline, List.length_cons]
            · exact .comment hnewline .nil
        · refine ⟨[], b :: t, rfl, ?_, .newline, fun _ => .nil⟩
          simp [gapLength, hb, hcomment]

end Scan

namespace Cursor

variable {c c' : Cursor} {t : Token}

theorem skip_length (g rest : Text) (pos : Pos) :
    (⟨g ++ rest, pos⟩ : Cursor).skip g.length = ⟨rest, pos.after g⟩ := by
  simp [skip]

theorem scan_token {g w rest : Text} {l : Lexeme} (hg : Gap g) (hw : l.Written w)
    (hrest : l.Apart rest) (pos : Pos) : (⟨g ++ (w ++ rest), pos⟩ : Cursor).scan =
      (.ok ⟨l, pos.after g⟩, ⟨rest, (pos.after g).after w⟩) := by
  have hgap : (⟨g ++ (w ++ rest), pos⟩ : Cursor).skipGap = ⟨w ++ rest, pos.after g⟩ := by
    rw [skipGap, Scan.gapLength_gap hg, Scan.gapLength_written hw, Nat.add_zero, skip_length]
  unfold scan
  simp only [hgap, Scan.lexeme_of_written hw hrest, skip_length]

theorem scan_eq_token (h : c.scan = (.ok t, c')) (ht : t.lexeme ≠ .endOfInput) :
    ∃ g w, c.rest = g ++ (w ++ c'.rest) ∧ Gap g ∧ t.lexeme.Written w ∧ t.lexeme.Apart c'.rest ∧
      t.pos = c.pos.after g ∧ c'.pos = t.pos.after w := by
  obtain ⟨rest, pos⟩ := c
  obtain ⟨g, u, rfl, hlen, -, hgap⟩ := Scan.gapLength_split rest
  unfold scan skipGap at h
  simp only [hlen, skip_length] at h
  split at h
  · rename_i l n hl
    cases h
    obtain ⟨w, v, rfl, rfl, hw, hv⟩ := Scan.written_of_lexeme hl ht
    have hne : w ++ v ≠ [] := by
      obtain ⟨b, w, rfl, _⟩ := hw.start
      simp
    rw [skip_length]
    exact ⟨g, w, rfl, hgap hne, hw, hv, rfl, rfl⟩
  · cases h

theorem Scans.written {ts : List Token} (h : c.Scans ts) : ∀ t ∈ ts, ∃ w, t.lexeme.Written w := by
  induction h with
  | finish _ => exact List.forall_mem_nil _
  | token hscan ht _ ih =>
    obtain ⟨_, w, _, _, hw, _⟩ := scan_eq_token hscan ht
    exact List.forall_mem_cons.2 ⟨⟨w, hw⟩, ih⟩

/-- The end of the input is scanned at the end of the text. -/
theorem scan_eq_finish {pos : Pos} (h : c.scan = (.ok ⟨.endOfInput, pos⟩, c')) :
    pos = c.pos.after c.rest ∧ Gap (c.rest ++ [Text.newline]) := by
  obtain ⟨rest, p⟩ := c
  obtain ⟨g, u, rfl, hlen, hclosed, -⟩ := Scan.gapLength_split rest
  unfold scan skipGap at h
  simp only [hlen, skip_length] at h
  split at h
  · rename_i l n hl
    cases h
    cases u with
    | nil =>
      rw [List.append_nil]
      exact ⟨rfl, hclosed⟩
    | cons b u =>
      -- Before a byte there is no end of the input.
      exact absurd hl (Scan.lexeme_cons_ne b u n)
  · cases h

/-- A fault is found after a gap that goes as far as it can. -/
theorem scan_eq_error {e : Error} (h : c.scan = (.error e, c')) :
    ∃ (g u : Text) (f : Fault) (n : Nat), c.rest = g ++ u ∧ Gap g ∧ Scan.gapLength false u = 0 ∧
      Scan.lexeme u = .error (f, n) ∧ e = f.error (c.pos.after g) := by
  obtain ⟨rest, pos⟩ := c
  obtain ⟨g, u, rfl, hlen, -, hgap⟩ := Scan.gapLength_split rest
  unfold scan skipGap at h
  simp only [hlen, skip_length] at h
  split at h
  · cases h
  · rename_i f n hl
    cases h
    have hg : Gap g := hgap fun hu => by
      subst hu
      cases hl
    have hzero : Scan.gapLength false u = 0 := by
      rw [Scan.gapLength_gap hg] at hlen
      omega
    exact ⟨g, u, f, n, rfl, hg, hzero, hl, rfl⟩

/-- A fault other than an open string stays where it is when a line feed is put after the text. -/
theorem scan_error_append {e : Error} (h : c.scan = (.error e, c'))
    (hopen : ∀ rest pos, e ≠ (Fault.unterminatedString rest).error pos) (t : Text) :
    ∃ d, (⟨c.rest ++ Text.newline :: t, c.pos⟩ : Cursor).scan = (.error e, d) := by
  obtain ⟨g, u, f, n, hrest, hg, hzero, hl, rfl⟩ := scan_eq_error h
  -- The gap ends where it did, since a byte comes after it that is not a part of it.
  have hstart : Scan.gapLength false (u ++ Text.newline :: t) = 0 := by
    cases u with
    | nil => cases hl
    | cons b u =>
      simp only [Scan.gapLength, List.cons_append, Bool.false_eq_true, if_false] at hzero ⊢
      split_ifs at hzero ⊢
      rfl
  have hskip : Scan.gapLength false (g ++ (u ++ Text.newline :: t)) = g.length := by
    rw [Scan.gapLength_gap hg, hstart, Nat.add_zero]
  have hends : ∀ p w, Scan.NumberEnds p w (Text.newline :: t) := by
    intro p w b hb
    cases hb
    have hdigit : Decimal.isDigit Text.newline = false := by decide
    have hpoint : (Text.newline == pointSign) = false := by decide
    rw [hdigit, hpoint]
    rfl
  have herror :=
    Scan.lexeme_error_append hl (fun rest hrest => hopen rest _ (by rw [hrest])) hends
  refine ⟨(⟨u ++ Text.newline :: t, c.pos.after g⟩ : Cursor).skip n, ?_⟩
  unfold scan skipGap
  simp only [hrest, List.append_assoc, hskip, skip_length, herror]

/-! ## Some tokens of a text -/

/-- Scanning some tokens leads from one cursor to another. -/
inductive Takes : Cursor → List Token → Cursor → Prop
  | nil {c : Cursor} : Takes c [] c
  | cons {c d d' : Cursor} {t : Token} {ts : List Token} (h : c.scan = (.ok t, d))
      (ht : t.lexeme ≠ .endOfInput) (rest : Takes d ts d') : Takes c (t :: ts) d'

theorem Takes.in {source : Text} {ts : List Token} (h : c.Takes ts c') (hc : c.In source) :
    c'.In source := by
  induction h with
  | nil => exact hc
  | cons hscan _ _ ih => exact ih (hc.scan hscan).2

/-- What comes after some tokens can be replaced by what is apart from the same lexemes. -/
theorem Takes.replace {ts : List Token} (h : c.Takes ts c') {u : Text}
    (hu : ∀ l : Lexeme, l.Apart c'.rest → l.Apart u) :
    ∃ w, c.rest = w ++ c'.rest ∧ (⟨w ++ u, c.pos⟩ : Cursor).Takes ts ⟨u, c'.pos⟩ := by
  induction h with
  | nil => exact ⟨[], rfl, .nil⟩
  | @cons c d d' t ts hscan ht rest ih =>
    obtain ⟨w, hw, htakes⟩ := ih hu
    obtain ⟨g, v, hrest, hg, hv, hapart, hpos, hpos'⟩ := scan_eq_token hscan ht
    have hapart : t.lexeme.Apart (w ++ u) := by
      rw [hw] at hapart
      cases w with
      | nil => exact hu _ hapart
      | cons b w => exact hapart
    have hfirst := scan_token hg hv hapart c.pos
    rw [← hpos, ← hpos'] at hfirst
    refine ⟨g ++ (v ++ w), by rw [hrest, hw]; simp, ?_⟩
    simp only [List.append_assoc]
    exact .cons hfirst ht htakes

/-- A line feed can be put in the place of what comes some way after the last token. -/
theorem Takes.newline {ts : List Token} (h : c.Takes ts c') {g v : Text} (hrest : c'.rest = g ++ v)
    (t : Text) : ∃ w, c.rest = w ++ g ++ v ∧
      (⟨w ++ g ++ Text.newline :: t, c.pos⟩ : Cursor).Takes ts
        ⟨g ++ Text.newline :: t, c'.pos⟩ := by
  have hapart : ∀ l : Lexeme, l.Apart c'.rest → l.Apart (g ++ Text.newline :: t) := by
    intro l hl
    rw [hrest] at hl
    cases g with
    | nil => exact detached_newline t l
    | cons b g => exact hl
  obtain ⟨w, hw, htakes⟩ := h.replace hapart
  rw [hrest] at hw
  refine ⟨w, by rw [hw, List.append_assoc], ?_⟩
  rw [List.append_assoc]
  exact htakes

end Cursor

/-! ## Texts without positions -/

/-- The lexemes of a text. -/
inductive Lexes : Text → List Lexeme → Prop
  | finish {g : Text} (hg : Gap g) : Lexes g []
  | lexeme {g w t : Text} {l : Lexeme} {ls : List Lexeme} (hg : Gap g) (hw : l.Written w)
      (ht : l.Apart t) (rest : Lexes t ls) : Lexes (g ++ (w ++ t)) (l :: ls)

theorem Gap.append {g t : Text} (h : Gap g) (ht : Gap t) : Gap (g ++ t) := by
  induction h with
  | nil => exact ht
  | blank hb _ ih => exact .blank hb ih
  | comment hbody _ ih =>
    simp only [List.cons_append, List.append_assoc]
    exact .comment hbody ih

theorem Lexes.gap {g t : Text} {ls : List Lexeme} (hg : Gap g) (h : Lexes t ls) :
    Lexes (g ++ t) ls := by
  cases h with
  | finish ht => exact .finish (hg.append ht)
  | lexeme hg' hw ht rest =>
    rw [← List.append_assoc]
    exact .lexeme (hg.append hg') hw ht rest

theorem Lexes.scans {t : Text} {ls : List Lexeme} (h : Lexes t ls) (pos : Pos) :
    ∃ ts, (⟨t, pos⟩ : Cursor).Scans ts ∧ ts.map (·.lexeme) = ls := by
  induction h generalizing pos with
  | @finish g hg =>
    have hlen := Scan.gapLength_gap hg []
    rw [List.append_nil] at hlen
    have hscan : (⟨g, pos⟩ : Cursor).scan =
        (.ok ⟨.endOfInput, pos.after g⟩, ⟨[], pos.after g⟩) := by
      unfold Cursor.scan Cursor.skipGap
      simp [hlen, Scan.gapLength, Cursor.skip, Scan.lexeme, Pos.after]
    exact ⟨[], .finish hscan, rfl⟩
  | lexeme hg hw ht _ ih =>
    obtain ⟨ts, hts, hls⟩ := ih ((pos.after _).after _)
    have hfirst := Cursor.scan_token hg hw ht pos
    exact ⟨_ :: ts, .token hfirst hw.ne_endOfInput hts, by rw [List.map_cons, hls]⟩

theorem Cursor.Takes.scans {c c' : Cursor} {ts us : List Token} (h : c.Takes ts c')
    (hus : c'.Scans us) : c.Scans (ts ++ us) := by
  induction h with
  | nil => exact hus
  | cons hscan ht _ ih => exact .token hscan ht (ih hus)

/-! ## Streams -/

namespace Stream

theorem scanWithin_takes {c c' : Cursor} {ts : List Token} (h : c.Takes ts c') {n : Nat}
    (hn : c.rest.length < n) :
    ∃ m, c'.rest.length < m ∧ scanWithin n c = prepend ts (scanWithin m c') := by
  induction h generalizing n with
  | nil => exact ⟨n, hn, rfl⟩
  | @cons c d d' t ts hscan ht _ ih =>
    obtain ⟨n, rfl⟩ : ∃ n', n = n' + 1 := ⟨n - 1, by omega⟩
    have hlt := Cursor.length_scan hscan ht
    obtain ⟨m, hm, hrest⟩ := ih (n := n) (by omega)
    exact ⟨m, hm, by rw [scanWithin_token hscan ht, hrest]; rfl⟩

theorem takes_of_scanWithin {ts : List Token} {c : Cursor} {n : Nat} {s : Stream}
    (h : scanWithin n c = prepend ts s) (hn : c.rest.length < n) :
    ∃ c' m, c.Takes ts c' ∧ c'.rest.length < m ∧ s = scanWithin m c' := by
  induction ts generalizing c n with
  | nil => exact ⟨c, n, .nil, hn, h.symm⟩
  | cons t ts ih =>
    obtain ⟨n, rfl⟩ : ∃ n', n = n' + 1 := ⟨n - 1, by omega⟩
    rcases scan_cases c with ⟨pos, d, hc⟩ | ⟨u, d, hc, hu⟩ | ⟨e, d, hc⟩
    · rw [scanWithin_finish hc] at h
      cases h
    · rw [scanWithin_token hc hu] at h
      injection h with htu hrest
      subst htu
      have hlt := Cursor.length_scan hc hu
      obtain ⟨c', m, htakes, hm, rfl⟩ := ih hrest (by omega)
      exact ⟨c', m, .cons hc hu htakes, hm, rfl⟩
    · rw [scanWithin_broken hc] at h
      cases h

end Stream

end Mycel
