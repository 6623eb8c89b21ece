import Mathlib.Data.List.Basic
import Mycel.Number
import Mycel.Proofs.Token.Spelling

/-!
# How literals are printed

The printed texts of numbers, strings, names and reserved words are spellings of their lexemes. For
a number this needs that it is printed with digits and a point only, and for a string that its
bytes are printable ASCII.
-/

namespace Mycel

/-! ## Numbers -/

theorem Text.ofNat_digits (n : Nat) : ∃ b t, ofNat n = b :: t ∧ Decimal.isDigit b = true := by
  obtain ⟨c, cs, hcs⟩ := List.exists_cons_of_ne_nil (Nat.toDigits_ne_nil (n := n) (b := 10))
  have hc : c.isDigit = true :=
    Nat.isDigit_of_mem_toDigits (by decide) (by decide) (hcs ▸ List.mem_cons_self)
  refine ⟨c.toNat.toUInt8, cs.map fun c => c.toNat.toUInt8, by rw [ofNat, hcs, List.map_cons], ?_⟩
  obtain ⟨hlow, hhigh⟩ : 48 ≤ c.toNat ∧ c.toNat ≤ 57 := by
    simpa [Char.isDigit, UInt32.le_iff_toNat_le] using hc
  have hvalue : (c.toNat.toUInt8).toNat = c.toNat := by
    rw [Nat.toUInt8, UInt8.toNat_ofNat']
    omega
  simp only [Decimal.isDigit, Bool.and_eq_true, decide_eq_true_eq, UInt8.le_iff_toNat_le, hvalue]
  exact ⟨hlow, hhigh⟩

namespace Decimal

theorem positional_start (d : Decimal) : ∃ b t, d.positional = b :: t ∧ b ≠ pointSign := by
  obtain ⟨b, t, hdigits, hb⟩ := Text.ofNat_digits d.coefficient
  have hdigits : d.digits = b :: t := hdigits
  have hne : b ≠ pointSign := by
    rintro rfl
    exact absurd hb (by decide)
  simp only [positional]
  split_ifs with hexponent hplaces
  · exact ⟨b, _, by rw [hdigits, List.cons_append], hne⟩
  · obtain ⟨k, hk⟩ : ∃ k, d.digits.length - (-d.exponent).toNat = k + 1 :=
      ⟨d.digits.length - (-d.exponent).toNat - 1, by omega⟩
    exact ⟨b, _, by rw [hk, hdigits, List.take_succ_cons, List.cons_append], hne⟩
  · exact ⟨48, _, rfl, by decide⟩

theorem scientific_start (width : Nat) (d : Decimal) :
    ∃ b t, d.scientific width = b :: t ∧ b ≠ pointSign := by
  obtain ⟨b, t, hdigits, hb⟩ := Text.ofNat_digits d.coefficient
  have hdigits : d.digits = b :: t := hdigits
  have hne : b ≠ pointSign := by
    rintro rfl
    exact absurd hb (by decide)
  exact ⟨b, _, by rw [scientific, hdigits]; rfl, hne⟩

end Decimal

/-- No number is printed with a point first. -/
theorem Number.text_start (x : Float) : ∃ b t, text x = b :: t ∧ b ≠ pointSign := by
  have hsigned : ∀ (negative : Bool) (t : Text), (∃ b u, t = b :: u ∧ b ≠ pointSign) →
      ∃ b u, (if negative then [45] else []) ++ t = b :: u ∧ b ≠ pointSign := by
    intro negative t ht
    cases negative with
    | true => exact ⟨45, t, rfl, by decide⟩
    | false => exact ht
  simp only [text, Layout.number]
  split
  · exact ⟨_, _, rfl, by decide⟩
  split
  · split
    · exact ⟨_, _, rfl, by decide⟩
    · exact ⟨_, _, rfl, by decide⟩
  split
  · exact hsigned _ _ ⟨48, [], rfl, by decide⟩
  · refine hsigned _ _ ?_
    split
    · split
      · exact Decimal.positional_start _
      · exact Decimal.scientific_start _ _
    · split
      · exact Decimal.positional_start _
      · exact Decimal.scientific_start _ _

theorem Scan.numberLength_eq {p : Bool} {t : Text}
    (hform : ∀ b ∈ t, Decimal.isDigit b = true ∨ b = pointSign)
    (hpoint : t.count pointSign ≤ if p then 0 else 1) : numberLength p t = t.length := by
  induction t generalizing p with
  | nil => rfl
  | cons b t ih =>
    obtain ⟨hb, ht⟩ := List.forall_mem_cons.1 hform
    have hdigit : Decimal.isDigit pointSign = false := by decide
    rcases hb with hb | rfl
    · have hne : b ≠ pointSign := by
        rintro rfl
        cases hdigit.symm.trans hb
      rw [List.count_cons_of_ne hne] at hpoint
      rw [numberLength, if_pos hb, ih ht hpoint, List.length_cons]
    · rw [List.count_cons_self] at hpoint
      cases p with
      | true => simp at hpoint
      | false =>
        have hrest : t.count pointSign ≤ if true then 0 else 1 := by simpa using hpoint
        rw [numberLength, hdigit, if_neg (by decide), if_pos (by decide), ih ht hrest,
          List.length_cons]

theorem written_number {x : Float}
    (hform : ∀ b ∈ Number.text x, Decimal.isDigit b = true ∨ b = pointSign)
    (hpoint : (Number.text x).count pointSign ≤ 1)
    (hvalue : Decimal.ofLiteral? (Number.text x) = some x) :
    (Lexeme.number (Number.text x) x).Written (Number.text x) := by
  obtain ⟨b, t, htext, hb⟩ := Number.text_start x
  have hlength : Scan.numberLength false (Number.text x) = (Number.text x).length :=
    Scan.numberLength_eq hform hpoint
  rw [htext] at hform hvalue hlength ⊢
  exact .number ((hform b List.mem_cons_self).resolve_right hb) hlength hvalue

/-! ## Strings -/

/-- A byte of a string as it is printed. -/
def escaped (b : UInt8) : Text := if b = quoteSign ∨ b = escapeSign then [escapeSign, b] else [b]

theorem Utf8.piecesWithin_ascii {s : Text} (h : ∀ b ∈ s, b < 0x80) {n : Nat} (hn : s.length ≤ n) :
    piecesWithin n s = s.map fun b => .point b.toNat := by
  induction s generalizing n with
  | nil => cases n <;> rfl
  | cons b s ih =>
    obtain ⟨hb, hs⟩ := List.forall_mem_cons.1 h
    rw [List.length_cons] at hn
    obtain ⟨n, rfl⟩ : ∃ n', n = n' + 1 := ⟨n - 1, by omega⟩
    have hpoint : point? (b :: s) = some (b.toNat, 1) := by
      unfold point?
      exact if_pos hb
    simp only [piecesWithin, hpoint, List.drop_succ_cons, List.drop_zero, List.map_cons,
      ih hs (Nat.le_of_succ_le_succ hn)]

theorem Quoted.piece_printable {b : UInt8} (h : 0x20 ≤ b ∧ b ≤ 0x7e) :
    piece 34 (.point b.toNat) = escaped b := by
  have hcode : b.toNat.toUInt8 = b := by simp
  have hmark : b.toNat = (34 : UInt8).toNat ∨ b.toNat = 92 ↔ b = quoteSign ∨ b = escapeSign := by
    rw [← UInt8.toNat_inj, ← UInt8.toNat_inj]
    rfl
  have hprintable : Printable.isPrintable b.toNat = true := by
    have hrange : (0x20, 0x7e) ∈ Printable.ranges := List.mem_cons_self
    refine List.any_eq_true.2 ⟨_, hrange, ?_⟩
    simpa [UInt8.le_iff_toNat_le] using h
  have hencode : Utf8.encode b.toNat = [b] := by
    have hlt : b.toNat < 0x80 := by
      have := UInt8.le_iff_toNat_le.1 h.2
      simp at this
      omega
    rw [Utf8.encode, if_pos hlt, hcode]
  simp only [piece, point, escaped, hmark, hprintable, hencode, hcode, if_true]
  rfl

theorem Quoted.text_printable {s : Text} (h : ∀ b ∈ s, 0x20 ≤ b ∧ b ≤ 0x7e) :
    Quoted.text s = quoteSign :: (s.flatMap escaped ++ [quoteSign]) := by
  have hascii : ∀ b ∈ s, b < 0x80 := fun b hb => by
    have := (h b hb).2
    grind
  have hpieces : Utf8.pieces s = s.map fun b => .point b.toNat :=
    Utf8.piecesWithin_ascii hascii (Nat.le_refl _)
  rw [Quoted.text, hpieces, List.flatMap_map, List.cons_append]
  have hflat : s.flatMap (fun b => piece 34 (.point b.toNat)) = s.flatMap escaped :=
    List.flatMap_congr fun b hb => piece_printable (h b hb)
  rw [hflat]
  rfl

theorem unescapes_escaped (s : Text) : Unescapes (s.flatMap escaped) s := by
  induction s with
  | nil => exact .nil
  | cons b s ih =>
    rw [List.flatMap_cons, escaped]
    split_ifs with hb
    · exact .escape b ih
    · obtain ⟨hquote, hescape⟩ := not_or.1 hb
      exact .plain hquote hescape ih

theorem written_string {s : Text} (h : ∀ b ∈ s, 0x20 ≤ b ∧ b ≤ 0x7e) :
    (Lexeme.string s).Written (Quoted.text s) := by
  rw [Quoted.text_printable h]
  exact Scan.written_of_unescapes (unescapes_escaped s)

/-! ## Words -/

/-- What can be the name of a variable. -/
def Text.IsName (x : Text) : Prop :=
  (∃ b t, x = b :: t ∧ isNameStart b = true ∧ ∀ c ∈ t, isNamePart c = true) ∧
    Keyword.ofSpelling? x = none

theorem written_name {x : Text} (h : x.IsName) : (Lexeme.identifier x).Written x := by
  obtain ⟨⟨b, t, rfl, hb, ht⟩, hkeyword⟩ := h
  have hword : Scan.word (b :: t) = .identifier (b :: t) := by rw [Scan.word, hkeyword]
  exact hword ▸ .word hb ht

theorem written_keyword (k : Keyword) : (Lexeme.keyword k).Written k.spelling := by
  have hword : Scan.word k.spelling = .keyword k := by cases k <;> rfl
  rw [← hword]
  cases k <;> exact .word (by decide) (List.all_eq_true.1 (by decide))

end Mycel
