import Mycel.Proofs.Decimal.Range
import Mycel.Proofs.Syntax.Relocation
import Mycel.Proofs.Token.Placement

/-!
# Lexemes with space between them

Lexemes that are spelled one after another are scanned again, whatever gaps are between them, as
long as none of those is empty. So the program that they make does not depend on the gaps.
-/

namespace Mycel

/-! ## Spelling -/

namespace Lexeme

/-- How a lexeme is spelled. A string has quotes around it, and a backslash before each quote and
each backslash in it. -/
def spelling : Lexeme → Text
  | string value => quoteSign :: (value.flatMap escaped ++ [quoteSign])
  | l => l.literal

/-- The lexemes that have a spelling. A number has the value of its digits. -/
def Spellable : Lexeme → Prop
  | number w x => w.IsNumeral ∧ w.InRange ∧ x = Decimal.literalValue w
  | string _ | keyword _ | mark _ => True
  | identifier x => x.IsName
  | operator w => w ≠ [] ∧ ∀ b ∈ w, isOperatorByte b = true
  | endOfInput => False

theorem Spellable.written {l : Lexeme} (h : l.Spellable) : l.Written l.spelling := by
  cases l with
  | number w x =>
    obtain ⟨hw, hrange, rfl⟩ := h
    exact (SpelledBy.number hw (Decimal.ofLiteral?_of_inRange hrange)).written
  | string value => exact Scan.written_of_unescapes (unescapes_escaped value)
  | identifier x => exact written_name h
  | keyword k => exact written_keyword k
  | operator w => exact (SpelledBy.operator h.1 h.2).written
  | mark m => exact .mark m
  | endOfInput => exact h.elim

end Lexeme

/-! ## Gaps -/

theorem blank_class {b : UInt8} (h : isBlank b = true) : isNamePart b = false ∧
    isOperatorByte b = false ∧ Decimal.isDigit b = false ∧ (b == pointSign) = false := by
  simp only [isBlank, Bool.or_eq_true, beq_iff_eq] at h
  rcases h with ((rfl | rfl) | rfl) | rfl <;> decide

/-- What starts with a gap is apart from every lexeme. -/
theorem Gap.detached {g : Text} (h : Gap g) (hne : g ≠ []) (t : Text) : Detached (g ++ t) := by
  cases h with
  | nil => exact absurd rfl hne
  | blank hb _ => exact detached_cons (blank_class hb) _
  | comment _ _ => exact detached_cons (by decide) _

/-- A gap, and then lexemes with a gap after each. -/
def spellOut (first : Text) (parts : List (Lexeme × Text)) : Text :=
  first ++ parts.flatMap fun p => p.1.spelling ++ p.2

theorem spellOut_cons (first g : Text) (l : Lexeme) (parts : List (Lexeme × Text)) :
    spellOut first ((l, g) :: parts) = first ++ (l.spelling ++ spellOut g parts) := by
  simp [spellOut]

/-- The gaps are gaps, and those between two lexemes are not empty. -/
structure Spaced (first : Text) (parts : List (Lexeme × Text)) : Prop where
  first : Gap first
  gaps : ∀ p ∈ parts, Gap p.2
  between : ∀ p ∈ parts.dropLast, p.2 ≠ []

namespace Spaced

variable {first g : Text} {l : Lexeme} {parts : List (Lexeme × Text)}

theorem tail (h : Spaced first ((l, g) :: parts)) : Spaced g parts where
  first := h.gaps _ List.mem_cons_self
  gaps p hp := h.gaps p (List.mem_cons_of_mem _ hp)
  between p hp := by
    cases parts with
    | nil => exact absurd hp List.not_mem_nil
    | cons q parts => exact h.between p (List.mem_cons_of_mem _ hp)

/-- After a lexeme comes nothing, or a gap that is not empty. -/
theorem apart (h : Spaced first ((l, g) :: parts)) : l.Apart (spellOut g parts) := by
  by_cases hg : g = []
  · cases parts with
    | nil =>
      subst hg
      exact l.apart_nil
    | cons q parts => exact absurd hg (h.between (l, g) List.mem_cons_self)
  · exact h.tail.first.detached hg _ l

theorem lexes (h : Spaced first parts) (hparts : ∀ p ∈ parts, p.1.Spellable) :
    Lexes (spellOut first parts) (parts.map (·.1)) := by
  induction parts generalizing first with
  | nil =>
    rw [spellOut, List.flatMap_nil, List.append_nil]
    exact .finish h.first
  | cons p parts ih =>
    obtain ⟨l, g⟩ := p
    obtain ⟨hl, hparts⟩ := List.forall_mem_cons.1 hparts
    rw [spellOut_cons]
    exact .lexeme h.first hl.written h.apart (ih h.tail hparts)

end Spaced

/-! ## Scanning and parsing -/

theorem Cursor.Scans.gives {c : Cursor} {ts : List Token} (h : c.Scans ts) :
    ∃ pos, (⟨c, none⟩ : Reader).Gives ts (.ok ⟨.endOfInput, pos⟩) := by
  induction h with
  | @finish c c' pos hscan => exact ⟨pos, .finish (Reader.next_of_scan hscan)⟩
  | token hscan ht _ ih =>
    obtain ⟨pos, hrest⟩ := ih
    exact ⟨pos, .token (Reader.next_of_scan hscan) ht hrest⟩

/-- The same program except for positions, or errors that say the same of different places. -/
def ParsedAlike (x y : Except Error Program) : Prop :=
  (∃ p q, x = .ok p ∧ y = .ok q ∧ p.toNode.bare = q.toNode.bare) ∨
    ∃ e e' d d', x = .error e ∧ y = .error e' ∧ e.diagnostic? = some d ∧ e'.diagnostic? = some d' ∧
      d.code = d'.code ∧ d.expected = d'.expected ∧ d.found = d'.found

theorem Agree.parsedAlike {x y : Except Error Program}
    (h : Agree (fun p q => p.toNode.bare = q.toNode.bare) x y) : ParsedAlike x y := by
  cases x with
  | ok p =>
    cases y with
    | ok q => exact .inl ⟨p, q, rfl, rfl, h⟩
    | error e => exact h.elim
  | error e =>
    cases y with
    | ok q => exact h.elim
    | error e' =>
      obtain ⟨f, p, q, rfl, rfl⟩ := h
      exact .inr ⟨_, _, f.diagnostic p, f.diagnostic q, rfl, rfl, f.diagnostic?_error p,
        f.diagnostic?_error q, rfl, rfl, rfl⟩

theorem parsedAlike_of_lexes {source source' : Text} {ls : List Lexeme} (h : Lexes source ls)
    (h' : Lexes source' ls) : ParsedAlike (Program.parse source) (Program.parse source') := by
  obtain ⟨ts, hts, hls⟩ := h.scans Pos.start
  obtain ⟨us, hus, hls'⟩ := h'.scans Pos.start
  obtain ⟨p, hp⟩ := Stream.ofSource_eq_iff.2 hts
  obtain ⟨q, hq⟩ := Stream.ofSource_eq_iff.2 hus
  rw [Program.parse, Program.parse, hp, hq]
  exact (agree_ofStream (Stream.alike_prepend (hls.trans hls'.symm) p q)).parsedAlike

/-- Lexemes that are spelled out are read again, and with other gaps between them they are parsed to
the same. -/
theorem Program.parse_spellOut {first : Text} {parts : List (Lexeme × Text)}
    (hparts : ∀ p ∈ parts, p.1.Spellable) (hspaced : Spaced first parts) :
    (∃ ts pos, (Reader.ofSource (spellOut first parts)).Gives ts (.ok ⟨.endOfInput, pos⟩) ∧
        ts.map (·.lexeme) = parts.map (·.1)) ∧
      ∀ first' parts', parts'.map (·.1) = parts.map (·.1) → Spaced first' parts' →
        ParsedAlike (Program.parse (spellOut first parts))
          (Program.parse (spellOut first' parts')) := by
  have hlexes := hspaced.lexes hparts
  refine ⟨?_, fun first' parts' hsame hspaced' => ?_⟩
  · obtain ⟨ts, hts, hls⟩ := hlexes.scans Pos.start
    obtain ⟨pos, hgives⟩ := hts.gives
    exact ⟨ts, pos, hgives, hls⟩
  · have hparts' : ∀ p ∈ parts', p.1.Spellable := by
      have hls : ∀ l ∈ parts'.map (·.1), l.Spellable := hsame ▸ List.forall_mem_map.2 hparts
      exact List.forall_mem_map.1 hls
    exact parsedAlike_of_lexes hlexes (hsame ▸ hspaced'.lexes hparts')

/-- Two statements, with the same gap after each lexeme. -/
def spacedParts (gap : Text) : List (Lexeme × Text) :=
  [(.identifier (bytes "x"), gap), (.operator (bytes "+"), gap),
    (.number (bytes "2.5") (Decimal.literalValue (bytes "2.5")), gap), (.mark .semicolon, gap),
    (.keyword .trueWord, gap), (.operator (bytes "=="), gap), (.string (bytes "a\"b"), gap)]

theorem Program.parse_spacedParts :
    (∃ ts pos, (Reader.ofSource (bytes " x + 2.5 ; true == \"a\\\"b\" ")).Gives ts
        (.ok ⟨.endOfInput, pos⟩) ∧
        ts.map (·.lexeme) = (spacedParts (bytes " ")).map (·.1)) ∧
      ParsedAlike (Program.parse (bytes " x + 2.5 ; true == \"a\\\"b\" "))
        (Program.parse (spellOut [] (spacedParts (bytes "# c\n")))) := by
  have hparts : ∀ p ∈ spacedParts (bytes " "), p.1.Spellable := by
    have hname : (bytes "x").IsName := ⟨⟨_, _, rfl, by decide, List.forall_mem_nil _⟩, by decide⟩
    have hnumeral : (bytes "2.5").IsNumeral :=
      ⟨⟨_, _, rfl, by decide⟩, by decide +kernel, by decide⟩
    simp only [spacedParts, List.forall_mem_cons]
    exact ⟨hname, ⟨by decide, by decide +kernel⟩, ⟨hnumeral, by decide +kernel, rfl⟩, trivial,
      trivial, ⟨by decide, by decide +kernel⟩, trivial, List.forall_mem_nil _⟩
  have hspaced : ∀ first gap : Text, Gap first → Gap gap → gap ≠ [] →
      Spaced first (spacedParts gap) := by
    intro first gap hfirst hgap hne
    exact ⟨hfirst, by simp [spacedParts, hgap], by simp [spacedParts, hne]⟩
  have hspace : Gap (bytes " ") := .blank (by decide) .nil
  have hcomment : Gap (bytes "# c\n") := @Gap.comment (bytes " c") [] (by decide) .nil
  obtain ⟨hgives, hparsed⟩ := Program.parse_spellOut hparts (hspaced _ _ hspace hspace (by decide))
  exact ⟨hgives, hparsed _ _ rfl (hspaced _ _ .nil hcomment (by decide))⟩

end Mycel
