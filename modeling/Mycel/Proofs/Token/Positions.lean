import Mycel.Proofs.Token.Scanning

/-!
# Where tokens stand

The position of a token is the one after all that comes before it in the source. So it is a place in
one of the lines of the source, or the place right after a line. Every token stands further on than
those before it.
-/

namespace Mycel

namespace Text

theorem lines_cons (b : UInt8) (t : Text) : lines (b :: t) =
    if b = newline then [] :: lines t
    else match lines t with
      | [] => [[b]]
      | line :: rest => (b :: line) :: rest := rfl

theorem exists_lines (t : Text) : ∃ line rest, lines t = line :: rest := by
  cases t with
  | nil => exact ⟨[], [], rfl⟩
  | cons b t =>
    rw [lines_cons]
    split
    · exact ⟨_, _, rfl⟩
    · split
      · exact ⟨_, _, rfl⟩
      · exact ⟨_, _, rfl⟩

end Text

namespace Pos

theorem after_append (p : Pos) (u v : Text) : p.after (u ++ v) = (p.after u).after v :=
  List.foldl_append

/-- The position after a text, in terms of the lines that it has together with what follows. -/
theorem after_cases (p : Pos) (u v : Text) : ∃ (k : Nat) (line : Text),
    (u ++ v).lines[k]? = some line ∧ (p.after u).line = p.line + k ∧
      (k = 0 ∧ (p.after u).column = p.column + u.length ∧ u.length ≤ line.length ∨
        1 ≤ (p.after u).column ∧ (p.after u).column ≤ line.length + 1) := by
  induction u generalizing p with
  | nil =>
    obtain ⟨line, rest, hlines⟩ := Text.exists_lines v
    refine ⟨0, line, ?_, (Int.add_zero _).symm, .inl ⟨rfl, (Int.add_zero _).symm, Nat.zero_le _⟩⟩
    rw [List.nil_append, hlines]
    rfl
  | cons b u ih =>
    obtain ⟨first, rest, hlines⟩ := Text.exists_lines (u ++ v)
    rw [List.cons_append, Text.lines_cons]
    by_cases hb : b = Text.newline
    · have hafter : p.after (b :: u) = Pos.after ⟨p.line + 1, 1⟩ u := by
        rw [after, List.foldl_cons, next, if_pos hb, after]
      obtain ⟨k, line, hline, hk, hcolumn⟩ := ih ⟨p.line + 1, 1⟩
      rw [if_pos hb, hafter]
      refine ⟨k + 1, line, hline, by rw [hk]; push_cast; omega, .inr ?_⟩
      rcases hcolumn with ⟨_, hcolumn, hlength⟩ | hcolumn
      · simp only at hcolumn
        omega
      · exact hcolumn
    · have hafter : p.after (b :: u) = Pos.after ⟨p.line, p.column + 1⟩ u := by
        rw [after, List.foldl_cons, next, if_neg hb, after]
      obtain ⟨k, line, hline, hk, hcolumn⟩ := ih ⟨p.line, p.column + 1⟩
      rw [if_neg hb, hafter, hlines]
      rw [hlines] at hline
      cases k with
      | zero =>
        cases hline
        refine ⟨0, b :: first, rfl, hk, ?_⟩
        rw [List.length_cons, List.length_cons]
        simp only at hcolumn
        omega
      | succ k =>
        refine ⟨k + 1, line, hline, hk, .inr ?_⟩
        rcases hcolumn with ⟨h, _⟩ | hcolumn
        · cases h
        · exact hcolumn

/-- The position is a place in a line of the text, or the one right after a line. -/
def Within (source : Text) (pos : Pos) : Prop :=
  1 ≤ pos.line ∧ pos.line ≤ source.lines.length ∧ 1 ≤ pos.column ∧
    ∃ line, source.lines[(pos.line - 1).toNat]? = some line ∧ pos.column ≤ line.length + 1

theorem within_after_start (u v : Text) : (start.after u).Within (u ++ v) := by
  obtain ⟨k, line, hline, hk, hcolumn⟩ := after_cases start u v
  have hfirst : start.line = 1 ∧ start.column = 1 := ⟨rfl, rfl⟩
  have hindex : ((start.after u).line - 1).toNat = k := by omega
  obtain ⟨hlt, _⟩ := List.getElem?_eq_some_iff.1 hline
  exact ⟨by omega, by omega, by omega, line, hindex ▸ hline, by omega⟩

end Pos

namespace Cursor

/-- The cursor stands somewhere in the source. -/
def In (source : Text) (c : Cursor) : Prop :=
  ∃ u, source = u ++ c.rest ∧ c.pos = Pos.start.after u

theorem In.skip {source : Text} {c : Cursor} (h : c.In source) (n : Nat) :
    (c.skip n).In source := by
  obtain ⟨u, hrest, hpos⟩ := h
  refine ⟨u ++ c.rest.take n, ?_, ?_⟩
  · rw [List.append_assoc]
    show source = u ++ (c.rest.take n ++ c.rest.drop n)
    rw [List.take_append_drop, hrest]
  · show c.pos.after (c.rest.take n) = _
    rw [Pos.after_append, hpos]

theorem In.within {source : Text} {c : Cursor} (h : c.In source) : c.pos.Within source := by
  obtain ⟨u, hrest, hpos⟩ := h
  rw [hpos, hrest]
  exact Pos.within_after_start u c.rest

theorem In.scan {source : Text} {c c' : Cursor} {t : Token} (h : c.In source)
    (hscan : c.scan = (.ok t, c')) : t.pos.Within source ∧ c'.In source := by
  have hgap : c.skipGap.In source := h.skip _
  unfold Cursor.scan at hscan
  dsimp only at hscan
  split at hscan
  · cases hscan
    exact ⟨hgap.within, hgap.skip _⟩
  · cases hscan

/-- The tokens of a source stand in its lines. -/
theorem Scans.within {source : Text} {c : Cursor} {ts : List Token} (h : c.Scans ts)
    (hc : c.In source) : ∀ t ∈ ts, t.pos.Within source := by
  induction h with
  | finish _ => exact List.forall_mem_nil _
  | token hscan _ _ ih =>
    obtain ⟨ht, hc'⟩ := hc.scan hscan
    exact List.forall_mem_cons.2 ⟨ht, ih hc'⟩

end Cursor

/-! ## The order of positions -/

namespace Pos

/-- Further up, or further left in the same line. -/
def Precedes (p q : Pos) : Prop := p.line < q.line ∨ p.line = q.line ∧ p.column < q.column

theorem Precedes.trans {p q r : Pos} (h : p.Precedes q) (h' : q.Precedes r) : p.Precedes r := by
  unfold Precedes at *
  omega

theorem precedes_next (p : Pos) (b : UInt8) : p.Precedes (p.next b) := by
  unfold next
  split_ifs
  · exact .inl (Int.lt_succ _)
  · exact .inr ⟨rfl, Int.lt_succ _⟩

theorem precedes_after {p q : Pos} (h : p.Precedes q) (t : Text) : p.Precedes (q.after t) := by
  induction t generalizing q with
  | nil => exact h
  | cons b t ih => exact ih (h.trans (q.precedes_next b))

end Pos

namespace Cursor

/-- The cursor after a token is further on than the token, and the token not further back than the
cursor before it. -/
theorem precedes_scan {c c' : Cursor} {t : Token} (h : c.scan = (.ok t, c'))
    (ht : t.lexeme ≠ .endOfInput) : t.pos.Precedes c'.pos ∧
      ∀ p : Pos, p.Precedes c.pos → p.Precedes t.pos := by
  unfold scan at h
  dsimp only at h
  split at h
  · rename_i l n hl
    cases h
    obtain ⟨hne, hn⟩ := Scan.lexeme_pos hl ht
    obtain ⟨b, rest, hrest⟩ := List.exists_cons_of_ne_nil hne
    obtain ⟨n, rfl⟩ := Nat.exists_eq_add_one.2 hn
    refine ⟨?_, fun p hp => Pos.precedes_after hp _⟩
    show Pos.Precedes _ (c.skipGap.pos.after (c.skipGap.rest.take (n + 1)))
    rw [hrest, List.take_succ_cons]
    exact Pos.precedes_after (c.skipGap.pos.precedes_next b) _
  · cases h

theorem Scans.precedes {c : Cursor} {ts : List Token} (h : c.Scans ts) {p : Pos}
    (hp : p.Precedes c.pos) : ∀ t ∈ ts, p.Precedes t.pos := by
  induction h generalizing p with
  | finish _ => exact List.forall_mem_nil _
  | token hscan ht _ ih =>
    obtain ⟨hnext, hback⟩ := precedes_scan hscan ht
    exact List.forall_mem_cons.2 ⟨hback p hp, ih ((hback p hp).trans hnext)⟩

theorem Scans.sorted {c : Cursor} {ts : List Token} (h : c.Scans ts) :
    ts.Pairwise fun t u => t.pos.Precedes u.pos := by
  induction h with
  | finish _ => exact .nil
  | token hscan ht hrest ih => exact .cons (hrest.precedes (precedes_scan hscan ht).1) ih

/-- No two tokens of a source stand at the same position. -/
theorem Scans.nodup_pos {c : Cursor} {ts : List Token} (h : c.Scans ts) :
    (ts.map (·.pos)).Nodup := by
  refine List.pairwise_map.2 (h.sorted.imp fun hlt heq => ?_)
  rw [heq, Pos.Precedes] at hlt
  omega

end Cursor

end Mycel
