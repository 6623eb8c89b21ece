import Mathlib.Data.List.Forall2
import Mathlib.Tactic.SplitIfs
import Mycel.Error.Snippet
import Mycel.Proofs.Token.Positions

/-!
# The alignment of snippets

A snippet frames a byte of a source: it has the line of the byte and the lines before and after it,
as far as there are such, with their numbers flush right, and a caret right under the byte
(`Snippet.Frames`). An error with a position is shown with a snippet that frames the place of the
source that is nearest to the position (`Error.render_frames`).
-/

namespace Mycel

namespace Text

theorem newline_not_mem_of_mem_lines {t line : Text} (h : line ∈ t.lines) : newline ∉ line := by
  induction t generalizing line with
  | nil =>
    cases List.mem_singleton.1 h
    exact List.not_mem_nil
  | cons b t ih =>
    obtain ⟨first, rest, hlines⟩ := exists_lines t
    have hrest : ∀ l ∈ first :: rest, newline ∉ l := fun l hl => ih (hlines ▸ hl)
    obtain ⟨hfirst, hrest⟩ := List.forall_mem_cons.1 hrest
    rw [lines_cons, hlines] at h
    split_ifs at h with hb
    · rcases List.mem_cons.1 h with rfl | h
      · exact List.not_mem_nil
      · exact ih (hlines ▸ h)
    · rcases List.mem_cons.1 h with rfl | h
      · intro hmem
        rcases List.mem_cons.1 hmem with h | h
        · exact hb h.symm
        · exact hfirst h
      · exact hrest line h

theorem length_ofNat_mono {m n : Nat} (h : m ≤ n) : (ofNat m).length ≤ (ofNat n).length := by
  have hfits : ∀ k, (Nat.toDigits 10 k).length ≤ (Nat.toDigits 10 n).length ↔
      k < 10 ^ (Nat.toDigits 10 n).length :=
    fun _ => Nat.length_toDigits_le_iff (by decide) Nat.length_toDigits_pos
  rw [ofNat, ofNat, List.length_map, List.length_map, hfits]
  exact Nat.lt_of_le_of_lt h ((hfits n).1 (Nat.le_refl _))

theorem getLast?_append_of_ne_nil (t : Text) {u : Text} (hu : u ≠ []) :
    (t ++ u).getLast? = u.getLast? := by
  obtain ⟨b, hb⟩ := Option.ne_none_iff_exists'.1 (mt List.getLast?_eq_none_iff.1 hu)
  rw [List.getLast?_append, hb, Option.some_or]

/-- Joined texts end like the last of them. -/
theorem exists_join_eq (separator : Text) (ts : List Text) (last : Text) :
    ∃ t, join separator (ts ++ [last]) = t ++ last := by
  induction ts with
  | nil => exact ⟨[], rfl⟩
  | cons t ts ih =>
    obtain ⟨u, hu⟩ := ih
    refine ⟨t ++ separator ++ u, ?_⟩
    rw [List.append_assoc, ← hu]
    cases ts <;> rfl

end Text

namespace Snippet

/-- A row shows a line of a source: two spaces, its number flush right in a field, a bar, and the
line as it is. -/
def ShowsLine (source : Text) (width n : Nat) (row : Text) : Prop :=
  ∃ line pad, 1 ≤ n ∧ source.lines[n - 1]? = some line ∧ pad + (Text.ofNat n).length = width ∧
    row = bytes "  " ++ Text.spaces pad ++ Text.ofNat n ++ bytes " | " ++ line

/-- The numbers that are those of lines. -/
def existing (source : Text) (ns : List Nat) : List Nat :=
  ns.filter fun n => 1 ≤ n ∧ n ≤ source.lines.length

/-- The rows show a line and those right before and after it that exist, all in fields of the same
width. After the row of the line itself there is a caret, which stands where byte `column` of the
line stands in that row. -/
def Frames (source : Text) (line column : Nat) (rows : List Text) : Prop :=
  ∃ (width : Nat) (above below : List Text) (head shown front : Text),
    rows = above ++ (head ++ shown) :: (front ++ bytes "^") :: below ∧
    List.Forall₂ (ShowsLine source width) (existing source [line - 1]) above ∧
    ShowsLine source width line (head ++ shown) ∧ source.lines[line - 1]? = some shown ∧
    front.length = head.length + (column - 1) ∧ (∀ b ∈ front, b ∈ bytes " |") ∧
    List.Forall₂ (ShowsLine source width) (existing source [line + 1]) below

theorem showsLine_numbered {source line : Text} {width n : Nat} (hn : 1 ≤ n)
    (hline : source.lines[n - 1]? = some line) (hwidth : (Text.ofNat n).length ≤ width) :
    ShowsLine source width n (numbered width n line) :=
  ⟨line, width - (Text.ofNat n).length, hn, hline, Nat.sub_add_cancel hwidth, by
    simp only [numbered, Text.padLeft, List.append_assoc]⟩

theorem ShowsLine.getLast? {source row : Text} {width n : Nat} (h : ShowsLine source width n row) :
    row ≠ [] ∧ row.getLast? ≠ some Text.newline := by
  obtain ⟨line, pad, -, hline, -, rfl⟩ := h
  have hne : bytes " | " ++ line ≠ [] := List.cons_ne_nil _ _
  have hnewline : Text.newline ∉ bytes " | " ++ line := by
    intro hmem
    rcases List.mem_append.1 hmem with hmem | hmem
    · exact absurd hmem (by decide)
    · exact Text.newline_not_mem_of_mem_lines (List.mem_of_getElem? hline) hmem
  rw [List.append_assoc]
  refine ⟨List.append_ne_nil_of_right_ne_nil _ hne, fun hlast => ?_⟩
  rw [Text.getLast?_append_of_ne_nil _ hne] at hlast
  exact hnewline (List.mem_of_getLast? hlast)

/-- The row of a line that is not the one to point at. -/
theorem forall₂_context (source : Text) {width n line : Nat} (mark : Text → Text) (hn : n ≠ line)
    (hwidth : (Text.ofNat n).length ≤ width) :
    List.Forall₂ (ShowsLine source width) (existing source [n])
      (if n = 0 then [] else
        match source.lines.drop (n - 1) with
        | [] => []
        | shown :: _ =>
          numbered width n shown :: if n = line then [mark shown] else []) := by
  split_ifs with hzero
  · subst hzero
    exact .nil
  · have hpos : 1 ≤ n := Nat.pos_of_ne_zero hzero
    by_cases hlast : n ≤ source.lines.length
    · have hlt : n - 1 < source.lines.length := by omega
      have hexisting : existing source [n] = [n] := by
        simp [existing, hpos, hlast]
      rw [hexisting, List.drop_eq_getElem_cons hlt]
      exact .cons (showsLine_numbered hpos (List.getElem?_eq_getElem hlt) hwidth) .nil
    · have hexisting : existing source [n] = [] := by simp [existing, hlast]
      rw [hexisting, List.drop_eq_nil_of_le (by omega)]
      exact .nil

/-- The line to point at is one of the source. -/
theorem exists_shown (pos : Pos) (source : Text) (hline : 0 < pos.line) :
    1 ≤ lineNumber pos source.lines ∧
      ∃ shown, source.lines[lineNumber pos source.lines - 1]? = some shown := by
  obtain ⟨first, rest, hlines⟩ := Text.exists_lines source
  have hlength : 0 < source.lines.length := by rw [hlines]; exact Nat.succ_pos _
  have hlower : 1 ≤ lineNumber pos source.lines := by
    simp only [lineNumber]
    omega
  have hlt : lineNumber pos source.lines - 1 < source.lines.length := by
    have hle : lineNumber pos source.lines ≤ source.lines.length := Nat.min_le_right _ _
    omega
  exact ⟨hlower, _, List.getElem?_eq_getElem hlt⟩

/-- The rows of a snippet frame the byte that they point at. -/
theorem frames_rows {pos : Pos} {source shown : Text} (hline : 0 < pos.line)
    (hshown : source.lines[lineNumber pos source.lines - 1]? = some shown) :
    Frames source (lineNumber pos source.lines) (columnNumber pos shown) (rows pos source) := by
  obtain ⟨hpos, -⟩ := exists_shown pos source hline
  generalize hL : lineNumber pos source.lines = L at hshown hpos
  -- The field is as wide as the number of the line after, whether there is such a line or not.
  have hwidth : ∀ n ≤ L + 1, (Text.ofNat n).length ≤ (Text.ofNat (L + 1)).length :=
    fun _ => Text.length_ofNat_mono
  let width := (Text.ofNat (L + 1)).length
  let mark := fun line : Text => caret width (columnNumber pos line)
  have hbefore : L - 1 ≠ L := by omega
  have habove := forall₂_context source mark hbefore (hwidth _ (by omega))
  have hbelow := forall₂_context source mark (Nat.succ_ne_self L) (hwidth _ (Nat.le_refl _))
  have hdrop : ∃ after, source.lines.drop (L - 1) = shown :: after := by
    obtain ⟨hlt, heq⟩ := List.getElem?_eq_some_iff.1 hshown
    exact ⟨_, heq ▸ List.drop_eq_getElem_cons hlt⟩
  obtain ⟨after, hafter⟩ := hdrop
  have hself := showsLine_numbered hpos hshown (hwidth L (Nat.le_succ L))
  refine ⟨width, _, _, bytes "  " ++ Text.padLeft width (Text.ofNat L) ++ bytes " | ", shown,
    bytes "  " ++ Text.spaces width ++ bytes " | " ++ Text.spaces (columnNumber pos shown - 1),
    ?_, habove, hself, hshown, ?_, ?_, hbelow⟩
  · have hne : L ≠ 0 := by omega
    simp only [rows, hL, List.flatMap_cons, List.flatMap_nil, List.append_nil, hafter, hne,
      if_false, if_true]
    rfl
  · have hfield : (Text.padLeft width (Text.ofNat L)).length = width := by
      rw [Text.padLeft, List.length_append, Text.spaces, List.length_replicate]
      exact Nat.sub_add_cancel (hwidth L (Nat.le_succ L))
    simp only [List.length_append, hfield, Text.spaces, List.length_replicate]
  · have hmargin : bytes "  " ⊆ bytes " |" := by decide
    have hbar : bytes " | " ⊆ bytes " |" := by decide
    intro b hb
    simp only [List.mem_append, Text.spaces, List.mem_replicate] at hb
    rcases hb with ((hb | ⟨-, rfl⟩) | hb) | ⟨-, rfl⟩
    · exact hmargin hb
    · decide
    · exact hbar hb
    · decide

/-- Rows that frame a byte end with the last line shown, or with the caret. -/
theorem Frames.getLast? {source : Text} {line column : Nat} {rows : List Text}
    (h : Frames source line column rows) :
    ∃ before last, rows = before ++ [last] ∧ last ≠ [] ∧ last.getLast? ≠ some Text.newline := by
  obtain ⟨width, above, below, head, shown, front, rfl, -, -, -, -, -, hbelow⟩ := h
  rcases List.eq_nil_or_concat below with rfl | ⟨before, last, rfl⟩
  · refine ⟨above ++ [head ++ shown], front ++ bytes "^", by simp,
      List.append_ne_nil_of_right_ne_nil _ (by decide), ?_⟩
    rw [Text.getLast?_append_of_ne_nil _ (by decide)]
    decide
  · rw [List.concat_eq_append] at hbelow ⊢
    obtain ⟨n, ns, hshows, -, -⟩ :=
      List.forall₂_cons_right_iff.1 (List.forall₂_drop_append _ before [last] hbelow)
    exact ⟨above ++ (head ++ shown) :: (front ++ bytes "^") :: before, last, by simp,
      hshows.getLast?⟩

end Snippet

namespace Error

open Snippet

theorem render_of_first {e chain : Error} {d : Diagnostic} {source : Text}
    (hfirst : e.first? = some (d, chain)) (hline : 0 < d.pos.line) (hsource : source ≠ []) :
    e.render source =
      chain.text ++ bytes "\n\n" ++ Text.join [Text.newline] (rows d.pos source) := by
  have hshort : ¬ (d.pos.line ≤ 0 ∨ source = []) := by
    rintro (hle | hnil)
    · exact Int.not_le.2 hline hle
    · exact hsource hnil
  simp only [render, hfirst, hshort, if_false]

/-- An error whose first diagnostic has a position is shown with a snippet that frames the place of
the source nearest to the position. -/
theorem render_frames {e chain : Error} {d : Diagnostic} {source : Text}
    (hfirst : e.first? = some (d, chain)) (hline : 0 < d.pos.line) (hsource : source ≠ []) :
    ∃ (line column : Nat) (shown : Text) (rows : List Text),
      (line : Int) = min d.pos.line source.lines.length ∧
      source.lines[line - 1]? = some shown ∧
      (column : Int) = max 1 (min d.pos.column (shown.length + 1)) ∧
      Frames source line column rows ∧
      e.render source = chain.text ++ bytes "\n\n" ++ Text.join [Text.newline] rows ∧
      (e.render source).getLast? ≠ some Text.newline := by
  obtain ⟨-, shown, hshown⟩ := exists_shown d.pos source hline
  have hframes := frames_rows hline hshown
  have hrender := render_of_first hfirst hline hsource
  refine ⟨_, _, shown, _, ?_, hshown, ?_, hframes, hrender, ?_⟩
  · simp only [lineNumber]
    omega
  · simp only [columnNumber]
    omega
  · obtain ⟨before, last, hrows, hne, hlast⟩ := hframes.getLast?
    obtain ⟨t, hjoin⟩ := Text.exists_join_eq [Text.newline] before last
    rwa [hrender, hrows, hjoin, ← List.append_assoc, Text.getLast?_append_of_ne_nil _ hne]

/-- A refusal far beyond the end of a source, with a message in front of it. -/
def beyondEnd : Error :=
  .wrapped (bytes "eval") (.report { code := .parse, message := bytes "late", pos := ⟨12, 7⟩ })

/-- A source of nine lines, the last of which is empty. -/
def nineLines : Text := bytes "a\n\n\n\n\n\n\nb\n"

/-- The caret stands under the empty line, whose number is set in a field for two digits. -/
theorem render_frames_beyondEnd :
    ∃ (line column : Nat) (shown : Text) (rows : List Text),
      (line : Int) = min (12 : Int) nineLines.lines.length ∧
      nineLines.lines[line - 1]? = some shown ∧
      (column : Int) = max (1 : Int) (min 7 (shown.length + 1)) ∧
      Frames nineLines line column rows ∧
      beyondEnd.render nineLines =
        bytes "PARSE_ERROR: late (12:7)" ++ bytes "\n\n" ++ Text.join [Text.newline] rows ∧
      (beyondEnd.render nineLines).getLast? ≠ some Text.newline :=
  render_frames (e := beyondEnd) rfl (by decide) (by decide)

end Error

end Mycel
