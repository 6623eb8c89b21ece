import Mycel.Proofs.Token.Scanning

/-!
# How lexemes are written

`Lexeme.Written` lists the spellings of each lexeme, and `Lexeme.Apart` says what may come right
after one without making it longer. A lexeme is scanned exactly where it is written and what
follows is apart from it (`Scan.lexeme_of_written`, `Scan.written_of_lexeme`).
-/

namespace Mycel

/-- The byte between the digits of a number. -/
def pointSign : UInt8 := 46

/-! ## Classes of bytes -/

theorem digit_class {b : UInt8} (h : Decimal.isDigit b = true) :
    (b == quoteSign) = false ∧ isBlank b = false ∧ (b == commentSign) = false := by
  grind [Decimal.isDigit, quoteSign, isBlank, commentSign]

theorem nameStart_class {b : UInt8} (h : isNameStart b = true) :
    (b == quoteSign) = false ∧ Decimal.isDigit b = false ∧ isBlank b = false ∧
      (b == commentSign) = false := by
  grind [isNameStart, quoteSign, Decimal.isDigit, isBlank, commentSign]

theorem mark_class (m : Mark) :
    (m.byte == quoteSign) = false ∧ Decimal.isDigit m.byte = false ∧ isNameStart m.byte = false ∧
      Mark.ofByte? m.byte = some m ∧ isBlank m.byte = false ∧ (m.byte == commentSign) = false := by
  cases m <;> decide

theorem operator_class {b : UInt8} (h : isOperatorByte b = true) :
    (b == quoteSign) = false ∧ Decimal.isDigit b = false ∧ isNameStart b = false ∧
      Mark.ofByte? b = none ∧ isBlank b = false ∧ (b == commentSign) = false := by
  have hall : ∀ b ∈ bytes "+-*/%=&|<>!", (b == quoteSign) = false ∧ Decimal.isDigit b = false ∧
      isNameStart b = false ∧ Mark.ofByte? b = none ∧ isBlank b = false ∧
      (b == commentSign) = false := by decide +kernel
  exact hall b (List.contains_iff_mem.1 h)

theorem Mark.byte_of_ofByte? {b : UInt8} {m : Mark} (h : Mark.ofByte? b = some m) : m.byte = b := by
  have hfound := List.find?_some h
  simpa using hfound

/-! ## Spellings -/

/-- The text of a string is what is between its quotes, without each backslash but with the byte
after it. -/
inductive Unescapes : Text → Text → Prop
  | nil : Unescapes [] []
  | plain {b : UInt8} {inside value : Text} (hquote : b ≠ quoteSign) (hescape : b ≠ escapeSign)
      (h : Unescapes inside value) : Unescapes (b :: inside) (b :: value)
  | escape {inside value : Text} (b : UInt8) (h : Unescapes inside value) :
      Unescapes (escapeSign :: b :: inside) (b :: value)

namespace Lexeme

/-- A byte that would make the lexeme longer if it came right after it. -/
def continuesWith : Lexeme → UInt8 → Bool
  | number literal _, b => Decimal.isDigit b || (b == pointSign && !literal.contains pointSign)
  | identifier _, b | keyword _, b => isNamePart b
  | operator _, b => isOperatorByte b
  | string _, _ | mark _, _ | endOfInput, _ => false

/-- A text that may come right after the lexeme. -/
def Apart (l : Lexeme) (t : Text) : Prop := ∀ b ∈ t.head?, l.continuesWith b = false

inductive Written : Lexeme → Text → Prop
  | number {b : UInt8} {t : Text} {x : Float} (hb : Decimal.isDigit b = true)
      (ht : Scan.numberLength false (b :: t) = (b :: t).length)
      (hx : Decimal.ofLiteral? (b :: t) = some x) : Written (.number (b :: t) x) (b :: t)
  | string {value body : Text} (h : Scan.stringBody? false body = some (value, body.length)) :
      Written (.string value) (quoteSign :: body)
  | word {b : UInt8} {t : Text} (hb : isNameStart b = true) (ht : ∀ c ∈ t, isNamePart c = true) :
      Written (Scan.word (b :: t)) (b :: t)
  | operator {b : UInt8} {t : Text} (h : ∀ c ∈ b :: t, isOperatorByte c = true) :
      Written (.operator (b :: t)) (b :: t)
  | mark (m : Mark) : Written (.mark m) [m.byte]

theorem apart_nil (l : Lexeme) : l.Apart [] := nofun

theorem apart_cons {l : Lexeme} {b : UInt8} {t : Text} :
    l.Apart (b :: t) ↔ l.continuesWith b = false := by
  simp [Apart]

theorem continuesWith_word (t : Text) : (Scan.word t).continuesWith = isNamePart := by
  unfold Scan.word
  split <;> rfl

theorem word_ne_endOfInput (t : Text) : Scan.word t ≠ .endOfInput := by
  unfold Scan.word
  split <;> simp

/-- A written lexeme is not empty, and nothing before a token starts like it. -/
theorem Written.start {l : Lexeme} {w : Text} (h : l.Written w) :
    ∃ b t, w = b :: t ∧ isBlank b = false ∧ (b == commentSign) = false := by
  cases h with
  | number hb => exact ⟨_, _, rfl, (digit_class hb).2⟩
  | string => exact ⟨_, _, rfl, by decide⟩
  | word hb => exact ⟨_, _, rfl, (nameStart_class hb).2.2⟩
  | operator h =>
    exact ⟨_, _, rfl, (operator_class (h _ List.mem_cons_self)).2.2.2.2⟩
  | mark m => exact ⟨_, _, rfl, (mark_class m).2.2.2.2⟩

theorem Written.ne_endOfInput {l : Lexeme} {w : Text} (h : l.Written w) : l ≠ .endOfInput := by
  cases h with
  | word => exact word_ne_endOfInput _
  | _ => simp

end Lexeme

namespace Scan

/-! ## Scanning numbers, strings and words -/

/-- The literal `w` of a number ends before `t`; a point may have come before it. -/
def NumberEnds (pointSeen : Bool) (w t : Text) : Prop :=
  ∀ b ∈ t.head?,
    (Decimal.isDigit b || (b == pointSign && !(pointSeen || w.contains pointSign))) = false

/-- A number is as long as it can be, and it depends only on how it ends what comes after it. -/
theorem numberLength_split (p : Bool) (t : Text) : ∃ w rest, t = w ++ rest ∧
    NumberEnds p w rest ∧ ∀ u, NumberEnds p w u → numberLength p (w ++ u) = w.length := by
  have hpoint : Decimal.isDigit pointSign = false := by decide
  fun_induction numberLength p t with
  | case1 =>
    refine ⟨[], [], rfl, nofun, fun u hu => ?_⟩
    cases u with
    | nil => rfl
    | cons b u =>
      have hb := Bool.or_eq_false_iff.1 (hu b rfl)
      simpa [numberLength, pointSign, hb.1] using hb.2
  | case2 p b rest hdigit ih =>
    obtain ⟨w, rest, rfl, hrest, hw⟩ := ih
    have hcontains : (b :: w).contains pointSign = w.contains pointSign := by
      have hne : pointSign ≠ b := by
        rintro rfl
        cases hpoint.symm.trans hdigit
      simp [hne]
    refine ⟨b :: w, rest, rfl, by rwa [NumberEnds, hcontains], fun u hu => ?_⟩
    rw [NumberEnds, hcontains] at hu
    rw [List.cons_append, numberLength, if_pos hdigit, hw u hu, List.length_cons]
  | case3 p b rest hdigit hb ih =>
    obtain ⟨w, rest, rfl, hrest, hw⟩ := ih
    have hends : ∀ u, NumberEnds p (b :: w) u ↔ NumberEnds true w u := by
      have heq : b = pointSign := beq_iff_eq.1 (Bool.and_eq_true_iff.1 hb).1
      intro u
      simp [NumberEnds, heq]
    refine ⟨b :: w, rest, rfl, (hends rest).2 hrest, fun u hu => ?_⟩
    rw [List.cons_append, numberLength, if_neg hdigit, if_pos hb, hw u ((hends u).1 hu),
      List.length_cons]
  | case4 p b rest hdigit hb =>
    refine ⟨[], b :: rest, rfl, ?_, fun u hu => ?_⟩
    · simp only [Bool.not_eq_true] at hdigit hb
      simpa [NumberEnds, hdigit, pointSign] using hb
    · cases u with
      | nil => rfl
      | cons b u =>
        have hb := Bool.or_eq_false_iff.1 (hu b rfl)
        simpa [numberLength, pointSign, hb.1] using hb.2

theorem numberLength_digit {b : UInt8} (hb : Decimal.isDigit b = true) (t : Text) : ∃ v u,
    b :: t = (b :: v) ++ u ∧ NumberEnds false (b :: v) u ∧
      numberLength false (b :: t) = (b :: v).length ∧
      numberLength false (b :: v) = (b :: v).length := by
  obtain ⟨w, u, hsplit, hu, hw⟩ := numberLength_split false (b :: t)
  have hlen : numberLength false (b :: t) = w.length := by rw [hsplit, hw u hu]
  have hself := hw [] (by simp [NumberEnds])
  rw [List.append_nil] at hself
  cases w with
  | nil => simp [numberLength, hb] at hlen
  | cons c v =>
    cases hsplit
    exact ⟨v, u, rfl, hu, hlen, hself⟩

theorem numberLength_append {w u : Text} (h : numberLength false w = w.length)
    (hu : NumberEnds false w u) : numberLength false (w ++ u) = w.length := by
  obtain ⟨v, rest, rfl, hrest, hv⟩ := numberLength_split false w
  have hlen := h.symm.trans (hv rest hrest)
  obtain rfl : rest = [] := by
    rw [List.length_append] at hlen
    exact List.length_eq_zero_iff.1 (by omega)
  rw [List.append_nil] at hu ⊢
  exact hv u hu

/-- A string that is scanned has quotes around it and is unescaped. -/
theorem stringBody?_eq_some {escaped : Bool} {t value : Text} {n : Nat}
    (h : stringBody? escaped t = some (value, n)) : ∃ inside rest,
      t = inside ++ quoteSign :: rest ∧ n = inside.length + 1 ∧
        Unescapes (if escaped then escapeSign :: inside else inside) value := by
  fun_induction stringBody? escaped t generalizing value n with
  | case1 => cases h
  | case2 b rest ih =>
    obtain ⟨⟨v, m⟩, hv, ⟨⟩⟩ := Option.map_eq_some_iff.1 h
    obtain ⟨inside, rest, rfl, rfl, hinside⟩ := ih hv
    exact ⟨b :: inside, rest, rfl, rfl, .escape b hinside⟩
  | case3 escaped b rest hescaped hescape ih =>
    obtain ⟨⟨v, m⟩, hv, ⟨⟩⟩ := Option.map_eq_some_iff.1 h
    obtain ⟨inside, rest, rfl, rfl, hinside⟩ := ih hv
    obtain rfl : b = escapeSign := beq_iff_eq.1 hescape
    exact ⟨escapeSign :: inside, rest, rfl, rfl, by rwa [if_neg hescaped]⟩
  | case4 escaped b rest hescaped hescape hquote =>
    cases h
    obtain rfl : b = quoteSign := beq_iff_eq.1 hquote
    exact ⟨[], rest, rfl, rfl, by rw [if_neg hescaped]; exact .nil⟩
  | case5 escaped b rest hescaped hescape hquote ih =>
    obtain ⟨⟨v, m⟩, hv, ⟨⟩⟩ := Option.map_eq_some_iff.1 h
    obtain ⟨inside, rest, rfl, rfl, hinside⟩ := ih hv
    refine ⟨b :: inside, rest, rfl, rfl, ?_⟩
    rw [if_neg hescaped]
    exact .plain (by simpa using hquote) (by simpa using hescape) hinside

theorem stringBody?_of_unescapes {inside value : Text} (h : Unescapes inside value) (rest : Text) :
    stringBody? false (inside ++ quoteSign :: rest) = some (value, inside.length + 1) := by
  induction h with
  | nil => rfl
  | plain hquote hescape _ ih =>
    simp only [List.cons_append, stringBody?, ih, beq_eq_false_iff_ne.2 hquote,
      beq_eq_false_iff_ne.2 hescape]
    rfl
  | escape b _ ih =>
    simp only [List.cons_append, stringBody?, ih]
    rfl

theorem written_of_unescapes {inside value : Text} (h : Unescapes inside value) :
    (Lexeme.string value).Written (quoteSign :: (inside ++ [quoteSign])) := by
  refine .string ?_
  rw [List.length_append, List.length_singleton]
  exact stringBody?_of_unescapes h []

theorem stringBody?_append {w value : Text} (h : stringBody? false w = some (value, w.length))
    (u : Text) : stringBody? false (w ++ u) = some (value, w.length) := by
  obtain ⟨inside, rest, rfl, hlength, hinside⟩ := stringBody?_eq_some h
  rw [List.length_append, List.length_cons] at hlength
  obtain rfl : rest = [] := List.length_eq_zero_iff.1 (by omega)
  rw [List.append_assoc]
  simpa using stringBody?_of_unescapes hinside u

theorem takeWhile_append {p : UInt8 → Bool} {w u : Text} (hw : ∀ b ∈ w, p b = true)
    (hu : ∀ b ∈ u.head?, p b = false) : (w ++ u).takeWhile p = w := by
  rw [List.takeWhile_append_of_pos hw]
  cases u with
  | nil => simp
  | cons b u => simp [hu b rfl]

theorem takeWhile_split (p : UInt8 → Bool) (t : Text) : ∃ w rest, t = w ++ rest ∧
    t.takeWhile p = w ∧ (∀ b ∈ w, p b = true) ∧ ∀ b ∈ rest.head?, p b = false := by
  refine ⟨t.takeWhile p, t.dropWhile p, List.takeWhile_append_dropWhile.symm, rfl, ?_, ?_⟩
  · exact List.all_eq_true.1 List.all_takeWhile
  · intro b hb
    have := List.head?_dropWhile_not p t
    rw [hb] at this
    simpa using this

/-! ## Scanning lexemes -/

/-- A lexeme that is written before something apart from it is scanned. -/
theorem lexeme_of_written {l : Lexeme} {w t : Text} (h : l.Written w) (ht : l.Apart t) :
    lexeme (w ++ t) = .ok (l, w.length) := by
  cases h with
  | @number b w x hb hw hx =>
    have hlen : numberLength false (b :: w ++ t) = (b :: w).length :=
      numberLength_append hw fun c hc => by simpa [Lexeme.continuesWith] using ht c hc
    have htake : (b :: w ++ t).take (b :: w).length = b :: w := List.take_left
    simp only [List.cons_append] at hlen htake ⊢
    simp only [lexeme, (digit_class hb).1, hb, hlen, htake, hx, Bool.false_eq_true, if_false,
      if_true]
  | string hbody =>
    simp only [List.cons_append, lexeme, stringBody?_append hbody]
    rfl
  | @word b w hb hw =>
    have hall : ∀ c ∈ b :: w, isNamePart c = true :=
      List.forall_mem_cons.2 ⟨by simp [isNamePart, hb], hw⟩
    have htake : (b :: w ++ t).takeWhile isNamePart = b :: w :=
      takeWhile_append hall fun c hc => by simpa [Lexeme.continuesWith_word] using ht c hc
    obtain ⟨hquote, hdigit, _⟩ := nameStart_class hb
    simp only [List.cons_append] at htake ⊢
    simp only [lexeme, hquote, hdigit, hb, htake, Bool.false_eq_true, if_false, if_true]
  | @operator b w hw =>
    have hb := hw b List.mem_cons_self
    have htake : (b :: w ++ t).takeWhile isOperatorByte = b :: w :=
      takeWhile_append hw fun c hc => by simpa [Lexeme.continuesWith] using ht c hc
    obtain ⟨hquote, hdigit, hname, hmark, _⟩ := operator_class hb
    simp only [List.cons_append] at htake ⊢
    simp only [lexeme, hquote, hdigit, hname, hmark, hb, htake, Bool.false_eq_true, if_false,
      if_true]
  | mark m =>
    obtain ⟨hquote, hdigit, hname, hmark, _⟩ := mark_class m
    simp only [List.cons_append, List.nil_append, lexeme, hquote, hdigit, hname, hmark,
      Bool.false_eq_true, if_false]
    rfl

/-- A lexeme that is scanned is written there, and what comes after it is apart from it. -/
theorem written_of_lexeme {t : Text} {l : Lexeme} {n : Nat} (h : lexeme t = .ok (l, n))
    (hl : l ≠ .endOfInput) :
    ∃ w rest, t = w ++ rest ∧ n = w.length ∧ l.Written w ∧ l.Apart rest := by
  cases t with
  | nil =>
    cases h
    exact absurd rfl hl
  | cons b rest =>
    simp only [lexeme] at h
    split_ifs at h with hquote hdigit hname hop
    · -- a string
      split at h
      · rename_i value m hbody
        cases h
        obtain ⟨inside, rest, rfl, rfl, hinside⟩ := stringBody?_eq_some hbody
        obtain rfl : b = quoteSign := beq_iff_eq.1 hquote
        exact ⟨quoteSign :: (inside ++ [quoteSign]), rest, by simp, by simp,
          written_of_unescapes hinside, fun _ _ => rfl⟩
      · cases h
    · -- a number
      obtain ⟨v, u, hsplit, hu, hlen, hself⟩ := numberLength_digit hdigit rest
      have htake : (b :: rest).take (b :: v).length = b :: v := by rw [hsplit, List.take_left]
      rw [hlen, htake] at h
      split at h
      · rename_i x hx
        cases h
        exact ⟨b :: v, u, hsplit, rfl, .number hdigit hself hx, fun c hc => by
          simpa [Lexeme.continuesWith] using hu c hc⟩
      · cases h
    · -- a word
      obtain ⟨w, u, hsplit, htake, hw, hu⟩ := takeWhile_split isNamePart rest
      have hpart : isNamePart b = true := by simp [isNamePart, hname]
      rw [List.takeWhile_cons_of_pos hpart, htake] at h
      cases h
      refine ⟨b :: w, u, by rw [hsplit, List.cons_append], rfl, .word hname hw, fun c hc => ?_⟩
      rw [Lexeme.continuesWith_word]
      exact hu c hc
    · split at h
      · rename_i m hm
        cases h
        obtain rfl := Mark.byte_of_ofByte? hm
        exact ⟨[m.byte], rest, rfl, rfl, .mark m, fun _ _ => rfl⟩
      · -- an operator
        obtain ⟨w, u, hsplit, htake, hw, hu⟩ := takeWhile_split isOperatorByte rest
        rw [List.takeWhile_cons_of_pos hop, htake] at h
        cases h
        exact ⟨b :: w, u, by rw [hsplit, List.cons_append], rfl,
          .operator (List.forall_mem_cons.2 ⟨hop, hw⟩), hu⟩
    · split at h
      · rename_i m hm
        cases h
        obtain rfl := Mark.byte_of_ofByte? hm
        exact ⟨[m.byte], rest, rfl, rfl, .mark m, fun _ _ => rfl⟩
      · cases h

/-- A fault other than an open string stays one when the text goes on with a byte that belongs to
no number. -/
theorem lexeme_error_append {t : Text} {fault : Fault} {n : Nat}
    (h : lexeme t = .error (fault, n)) (hopen : ∀ rest, fault ≠ .unterminatedString rest)
    {u : Text} (hu : ∀ p w, NumberEnds p w u) : lexeme (t ++ u) = .error (fault, n) := by
  cases t with
  | nil => cases h
  | cons b rest =>
    simp only [lexeme, List.cons_append] at h ⊢
    split_ifs at h ⊢ with hquote hdigit hname hop
    · split at h
      · cases h
      · cases h
        exact absurd rfl (hopen _)
    · obtain ⟨w, v, hsplit, hv, hw⟩ := numberLength_split false (b :: rest)
      have hlen : numberLength false (b :: rest) = w.length := by rw [hsplit, hw v hv]
      have hlen' : numberLength false (b :: (rest ++ u)) = w.length := by
        rw [← List.cons_append, hsplit, List.append_assoc]
        refine hw (v ++ u) ?_
        cases v with
        | nil => exact hu false w
        | cons c v => exact hv
      have htake : (b :: rest).take w.length = w := by rw [hsplit, List.take_left]
      have htake' : (b :: (rest ++ u)).take w.length = w := by
        rw [← List.cons_append, hsplit, List.append_assoc, List.take_left]
      rw [hlen, htake] at h
      rw [hlen', htake']
      exact h
    · split at h
      · cases h
      · cases h
    · split at h
      · cases h
      · exact h

end Scan

end Mycel
