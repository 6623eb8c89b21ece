import Mycel.Proofs.Token.Scanning

/-!
# What the parser accepts

A function of the parser returns what `Reads` says, provided that the bound on the depth of calls is
large enough: `Goal.Accepts` is this property, and each rule of `Reads` keeps it. The bound need
only be linear in the number of tokens (`Reads.accepts`). With this, `Program.parse_eq_ok_iff` says
what the program of a source is in terms of its tokens alone.
-/

namespace Mycel

open Mycel.Stream

/-- What has to be added to four times the number of tokens. -/
def Goal.height : Goal → Nat
  | .item .expression | .items _ _ _ => 3
  | .item .name => 0
  | .item .definition | .chain _ _ | .calls _ | .primary => 1
  | .operand => 2
  | .conditional _ => 4

/-- With enough depth, the tokens are taken and make the result. -/
def Goal.Accepts (g : Goal) (ts : List Token) (next : Lexeme) (r : g.Result) : Prop :=
  ∀ n k s, s.Shows next → 4 * ts.length + g.height ≤ n → ts.length ≤ k →
    g.parse n k (prepend ts s) = .ok (r, s)

theorem Goal.height_item (i : Item) : (Goal.item i).height ≤ 3 := by
  cases i <;> simp [height]

theorem ok_bind {ε α β : Type} {x : Except ε α} {f : α → Except ε β} {a : α} {y : Except ε β}
    (hx : x = .ok a) (hf : f a = y) : (x >>= f) = y := by
  rw [hx]
  exact hf

theorem Stream.expect_bind {α : Type} {t : Token} {l : Lexeme} {s : Stream}
    {f : Stream → Except Error α} {y : Except Error α} (ht : t.lexeme = l) (hf : f s = y) :
    ((Stream.token t s).expect l >>= f) = y := by
  refine ok_bind ?_ hf
  unfold Stream.expect
  exact ok_bind rfl (if_pos ht)

theorem Lexeme.Opens.endsList {l : Lexeme} (h : l.Opens) (b : Enclosure) :
    ¬ Parser.endsList b.stop l = true := by
  intro hends
  rw [Parser.endsList, Bool.or_eq_true, beq_iff_eq, beq_iff_eq] at hends
  rcases hends with hends | hends
  · exact h.1 hends
  · cases b <;> simpa [Enclosure.stop] using h.2 _ hends

theorem Enclosure.separator_endsList {t : Token} (b : Enclosure)
    (ht : t.lexeme = .mark b.separator) : ¬ Parser.endsList b.stop t.lexeme = true := by
  cases b <;> simp [Parser.endsList, ht, separator, stop]

/-! ## Expressions -/

section

variable {next : Lexeme} {ts us vs ws : List Token} {t u : Token} {a e : Node}

theorem accepts_expression (hnext : next ≠ .mark .openParen)
    (hfirst : Goal.operand.Accepts ts (ahead us next) a)
    (hrest : (Goal.chain a 0).Accepts us next e) :
    (Goal.item .expression).Accepts (ts ++ us) next e := by
  intro n k s hs hn _
  simp only [List.length_append, Goal.height] at hn
  obtain ⟨n, rfl⟩ : ∃ n', n = n' + 2 := ⟨n - 2, by omega⟩
  have hoperand := hfirst (n + 1) ts.length _ (hs.prepend us) (by simp only [Goal.height]; omega)
    (Nat.le_refl _)
  have hchain := hrest (n + 1) us.length _ hs (by simp only [Goal.height]; omega) (Nat.le_refl _)
  obtain ⟨t, ht, rfl⟩ := hs
  show Parser.expression (n + 1 + 1) _ = _
  rw [Parser.expression, prepend_append]
  refine ok_bind hoperand (ok_bind hchain ?_)
  -- The last operand has taken all argument lists.
  show Parser.calls (n + 1) e s = _
  rw [Parser.calls]
  refine ok_bind ht ?_
  rw [if_neg hnext]
  rfl

theorem accepts_chainEnd {left : Node} {level : Nat}
    (h : ∀ c, Parser.connective? next = some c → c.precedence ≤ level) :
    (Goal.chain left level).Accepts [] next left := by
  intro n k s hs hn _
  simp only [Goal.height] at hn
  obtain ⟨n, rfl⟩ : ∃ n', n = n' + 1 := ⟨n - 1, by omega⟩
  obtain ⟨t, ht, rfl⟩ := hs
  show Parser.chain (n + 1) left level s = _
  rw [Parser.chain]
  refine ok_bind ht ?_
  cases hc : Parser.connective? t.lexeme with
  | none => rfl
  | some c => exact if_pos (h c hc)

theorem accepts_chainMore {c : Connective} {left right : Node} {level : Nat}
    (hc : Parser.connective? t.lexeme = some c) (hlevel : level < c.precedence)
    (hfirst : Goal.operand.Accepts ts (ahead (us ++ vs) next) a)
    (hrest : (Goal.chain a c.precedence).Accepts us (ahead vs next) right)
    (hmore : (Goal.chain (Parser.combine c left right) level).Accepts vs next e) :
    (Goal.chain left level).Accepts (t :: (ts ++ (us ++ vs))) next e := by
  intro n k s hs hn _
  simp only [List.length_cons, List.length_append, Goal.height] at hn
  obtain ⟨n, rfl⟩ : ∃ n', n = n' + 1 := ⟨n - 1, by omega⟩
  have hoperand := hfirst n ts.length _ (hs.prepend (us ++ vs)) (by simp only [Goal.height]; omega)
    (Nat.le_refl _)
  have hright := hrest n us.length _ (hs.prepend vs) (by simp only [Goal.height]; omega)
    (Nat.le_refl _)
  have hchain := hmore n vs.length _ hs (by simp only [Goal.height]; omega) (Nat.le_refl _)
  rw [prepend_append] at hoperand
  show Parser.chain (n + 1) left level (.token t (prepend (ts ++ (us ++ vs)) s)) = _
  rw [Parser.chain, prepend_append, prepend_append]
  refine ok_bind rfl ?_
  simp only [hc]
  rw [if_neg (Nat.not_le.2 hlevel)]
  exact ok_bind hoperand (ok_bind hright hchain)

theorem accepts_callsEnd (h : next ≠ .mark .openParen) : (Goal.calls a).Accepts [] next a := by
  intro n k s hs hn _
  simp only [Goal.height] at hn
  obtain ⟨n, rfl⟩ : ∃ n', n = n' + 1 := ⟨n - 1, by omega⟩
  obtain ⟨t, ht, rfl⟩ := hs
  show Parser.calls (n + 1) a s = _
  rw [Parser.calls]
  refine ok_bind ht ?_
  rw [if_neg h]
  rfl

theorem accepts_callsMore {args : List Node} (ht : t.lexeme = .mark .openParen)
    (hlist : (Goal.items .expression .parens true).Accepts ts (ahead us next) args)
    (hmore : (Goal.calls (.call a.pos a args)).Accepts us next e) :
    (Goal.calls a).Accepts (t :: (ts ++ us)) next e := by
  intro n k s hs hn _
  simp only [List.length_cons, List.length_append, Goal.height] at hn
  obtain ⟨n, rfl⟩ : ∃ n', n = n' + 1 := ⟨n - 1, by omega⟩
  have hargs := hlist n n _ (hs.prepend us) (by simp only [Goal.height]; omega) (by omega)
  have hcalls := hmore n us.length _ hs (by simp only [Goal.height]; omega) (Nat.le_refl _)
  show Parser.calls (n + 1) a (.token t (prepend (ts ++ us) s)) = _
  rw [Parser.calls, prepend_append]
  refine ok_bind rfl ?_
  rw [if_pos ht]
  exact ok_bind hargs hcalls

theorem accepts_operand (hfirst : Goal.primary.Accepts ts (ahead us next) a)
    (hrest : (Goal.calls a).Accepts us next e) : Goal.operand.Accepts (ts ++ us) next e := by
  intro n k s hs hn _
  simp only [List.length_append, Goal.height] at hn
  obtain ⟨n, rfl⟩ : ∃ n', n = n' + 1 := ⟨n - 1, by omega⟩
  have hprimary := hfirst n ts.length _ (hs.prepend us) (by simp only [Goal.height]; omega)
    (Nat.le_refl _)
  have hcalls := hrest n us.length _ hs (by simp only [Goal.height]; omega) (Nat.le_refl _)
  show Parser.operand (n + 1) _ = _
  rw [Parser.operand, prepend_append]
  exact ok_bind hprimary hcalls

/-! ## Primary expressions -/

theorem accepts_leaf (h : leaf? t = some e) : Goal.primary.Accepts [t] next e := by
  intro n k s hs hn _
  simp only [List.length_cons, Goal.height] at hn
  obtain ⟨n, rfl⟩ : ∃ n', n = n' + 1 := ⟨n - 1, by omega⟩
  show Parser.primary (n + 1) (.token t s) = _
  rw [Parser.primary]
  refine ok_bind rfl ?_
  unfold leaf? at h
  split at h
  case h_6 => cases h
  all_goals
    rename_i hl
    cases h
    simp only [hl]
    rfl

theorem accepts_paren (ht : t.lexeme = .mark .openParen) (hu : u.lexeme = .mark .closeParen)
    (hinside : (Goal.item .expression).Accepts ts (.mark .closeParen) e) :
    Goal.primary.Accepts (t :: (ts ++ [u])) next e := by
  intro n k s hs hn _
  simp only [List.length_cons, List.length_append, Goal.height] at hn
  obtain ⟨n, rfl⟩ : ∃ n', n = n' + 1 := ⟨n - 1, by omega⟩
  have hexpression := hinside n ts.length (.token u s) ⟨u, rfl, hu⟩
    (by simp only [Goal.height]; omega) (Nat.le_refl _)
  show Parser.primary (n + 1) (.token t (prepend (ts ++ [u]) s)) = _
  rw [Parser.primary, prepend_append]
  refine ok_bind rfl ?_
  simp only [ht]
  exact ok_bind hexpression (expect_bind hu rfl)

theorem accepts_block {body : List Node} (ht : t.lexeme = .mark .openBrace)
    (hlist : (Goal.items .expression .braces true).Accepts ts next body) :
    Goal.primary.Accepts (t :: ts) next (Parser.block t.pos body) := by
  intro n k s hs hn _
  simp only [List.length_cons, Goal.height] at hn
  obtain ⟨n, rfl⟩ : ∃ n', n = n' + 1 := ⟨n - 1, by omega⟩
  have hbody := hlist n n _ hs (by simp only [Goal.height]; omega) (by omega)
  show Parser.primary (n + 1) (.token t (prepend ts s)) = _
  rw [Parser.primary]
  refine ok_bind rfl ?_
  simp only [ht]
  exact ok_bind hbody rfl

theorem accepts_ifWord (ht : t.lexeme = .keyword .ifWord)
    (h : (Goal.conditional t.pos).Accepts ts next e) : Goal.primary.Accepts (t :: ts) next e := by
  intro n k s hs hn _
  simp only [List.length_cons, Goal.height] at hn
  obtain ⟨n, rfl⟩ : ∃ n', n = n' + 1 := ⟨n - 1, by omega⟩
  have hrest := h n ts.length _ hs (by simp only [Goal.height]; omega) (Nat.le_refl _)
  show Parser.primary (n + 1) (.token t (prepend ts s)) = _
  rw [Parser.primary]
  refine ok_bind rfl ?_
  simp only [ht]
  exact hrest

theorem ReadsName.parse {names : List Token} {f : Option Text} (h : ReadsName names f)
    (hu : u.lexeme = .mark .openParen) (s : Stream) :
    Parser.optionalName (prepend names (.token u s)) = .ok (f, .token u s) := by
  cases h with
  | none =>
    refine ok_bind rfl ?_
    simp only [hu]
    rfl
  | some name pos => rfl

theorem accepts_lambdaWord {names : List Token} {f : Option Text} {params : List Text}
    (ht : t.lexeme = .keyword .lambdaWord) (hf : ReadsName names f)
    (hu : u.lexeme = .mark .openParen)
    (hlist : (Goal.items .name .parens true).Accepts ts (ahead us next) params)
    (hrest : (Goal.item .expression).Accepts us next e) :
    Goal.primary.Accepts (t :: (names ++ u :: (ts ++ us))) next (.lambda t.pos f params e) := by
  intro n k s hs hn _
  simp only [List.length_cons, List.length_append, Goal.height] at hn
  obtain ⟨n, rfl⟩ : ∃ n', n = n' + 1 := ⟨n - 1, by omega⟩
  have hparams := hlist n n _ (hs.prepend us) (by simp only [Goal.height]; omega) (by omega)
  have hbody := hrest n us.length _ hs (by simp only [Goal.height]; omega) (Nat.le_refl _)
  show Parser.primary (n + 1) (.token t (prepend (names ++ u :: (ts ++ us)) s)) = _
  rw [Parser.primary, prepend_append]
  refine ok_bind rfl ?_
  simp only [ht]
  refine ok_bind (hf.parse hu _) (expect_bind hu ?_)
  rw [prepend_append]
  exact ok_bind hparams (ok_bind hbody rfl)

theorem accepts_letWord {names : List Token} {f : Option Text} {bindings : List (Text × Node)}
    (ht : t.lexeme = .keyword .letWord) (hf : ReadsName names f)
    (hu : u.lexeme = .mark .openParen)
    (hlist : (Goal.items .definition .parens true).Accepts ts (ahead us next) bindings)
    (hrest : (Goal.item .expression).Accepts us next e) :
    Goal.primary.Accepts (t :: (names ++ u :: (ts ++ us))) next
      (Parser.binding t.pos f bindings e) := by
  intro n k s hs hn _
  simp only [List.length_cons, List.length_append, Goal.height] at hn
  obtain ⟨n, rfl⟩ : ∃ n', n = n' + 1 := ⟨n - 1, by omega⟩
  have hbindings := hlist n n _ (hs.prepend us) (by simp only [Goal.height]; omega) (by omega)
  have hbody := hrest n us.length _ hs (by simp only [Goal.height]; omega) (Nat.le_refl _)
  show Parser.primary (n + 1) (.token t (prepend (names ++ u :: (ts ++ us)) s)) = _
  rw [Parser.primary, prepend_append]
  refine ok_bind rfl ?_
  simp only [ht]
  refine ok_bind (hf.parse hu _) (expect_bind hu ?_)
  rw [prepend_append]
  exact ok_bind hbindings (ok_bind hbody rfl)

/-! ## Conditionals -/

theorem ReadsThen.parse {α : Type} {l : Lexeme} (h : ReadsThen us l) {s : Stream}
    (hs : s.Shows l) {f : Stream → Except Error α} {y : Except Error α} (hf : f s = y) :
    ((prepend us s).peek >>= fun t =>
      if t.lexeme = .mark .openBrace then pure (prepend us s) >>= f
      else (prepend us s).expect (.keyword .thenWord) >>= f) = y := by
  cases h with
  | word ht l =>
    refine ok_bind rfl ?_
    rw [if_neg (by simp [ht])]
    exact expect_bind ht hf
  | brace =>
    obtain ⟨t, ht, hl⟩ := hs
    refine ok_bind ht ?_
    rw [if_pos hl]
    exact hf

theorem accepts_withoutElse {pos : Pos}
    (hfirst : (Goal.item .expression).Accepts ts (ahead (us ++ vs) next) a)
    (hthen : ReadsThen us (ahead vs next)) (hbranch : (Goal.item .expression).Accepts vs next e)
    (h : next ≠ .keyword .elseWord) :
    (Goal.conditional pos).Accepts (ts ++ (us ++ vs)) next (.branch pos a e .missing) := by
  intro n k s hs hn _
  simp only [List.length_append, Goal.height] at hn
  obtain ⟨n, rfl⟩ : ∃ n', n = n' + 1 := ⟨n - 1, by omega⟩
  have hcondition := hfirst n ts.length _ (hs.prepend (us ++ vs))
    (by simp only [Goal.height]; omega) (Nat.le_refl _)
  have htrue := hbranch n vs.length _ hs (by simp only [Goal.height]; omega) (Nat.le_refl _)
  rw [prepend_append] at hcondition
  show Parser.conditional (n + 1) pos _ = _
  rw [Parser.conditional, prepend_append, prepend_append]
  refine ok_bind hcondition (hthen.parse (hs.prepend vs) (ok_bind htrue ?_))
  obtain ⟨t, ht, rfl⟩ := hs
  refine ok_bind ht ?_
  rw [if_neg h]
  rfl

theorem accepts_withElse {pos : Pos} {whenFalse : Node}
    (hfirst : (Goal.item .expression).Accepts ts (ahead (us ++ (vs ++ t :: ws)) next) a)
    (hthen : ReadsThen us (ahead vs t.lexeme))
    (hbranch : (Goal.item .expression).Accepts vs t.lexeme e)
    (ht : t.lexeme = .keyword .elseWord)
    (hrest : (Goal.item .expression).Accepts ws next whenFalse) :
    (Goal.conditional pos).Accepts (ts ++ (us ++ (vs ++ t :: ws))) next
      (.branch pos a e whenFalse) := by
  intro n k s hs hn _
  simp only [List.length_cons, List.length_append, Goal.height] at hn
  obtain ⟨n, rfl⟩ : ∃ n', n = n' + 1 := ⟨n - 1, by omega⟩
  have hshows : (Stream.token t (prepend ws s)).Shows t.lexeme := ⟨t, rfl, rfl⟩
  have hcondition := hfirst n ts.length _ (hs.prepend (us ++ (vs ++ t :: ws)))
    (by simp only [Goal.height]; omega) (Nat.le_refl _)
  have htrue := hbranch n vs.length _ hshows (by simp only [Goal.height]; omega) (Nat.le_refl _)
  have hfalse := hrest n ws.length _ hs (by simp only [Goal.height]; omega) (Nat.le_refl _)
  rw [prepend_append, prepend_append] at hcondition
  show Parser.conditional (n + 1) pos _ = _
  rw [Parser.conditional, prepend_append, prepend_append, prepend_append]
  refine ok_bind hcondition (hthen.parse (hshows.prepend vs) (ok_bind htrue (ok_bind rfl ?_)))
  rw [if_pos ht]
  exact ok_bind hfalse rfl

/-! ## Lists and their items -/

theorem accepts_undefined {x : Text} {pos : Pos} (h : next ≠ .operator (bytes "=")) :
    (Goal.item .definition).Accepts [⟨.identifier x, pos⟩] next (x, .missing) := by
  intro n k s hs hn _
  simp only [List.length_cons, Goal.height] at hn
  obtain ⟨n, rfl⟩ : ∃ n', n = n' + 1 := ⟨n - 1, by omega⟩
  obtain ⟨t, ht, rfl⟩ := hs
  show Parser.definition (n + 1) (.token ⟨.identifier x, pos⟩ s) = _
  rw [Parser.definition]
  refine ok_bind rfl (ok_bind ht ?_)
  rw [if_neg h]
  rfl

theorem accepts_defined {x : Text} {pos : Pos} (ht : t.lexeme = .operator (bytes "="))
    (h : (Goal.item .expression).Accepts ts next e) :
    (Goal.item .definition).Accepts (⟨.identifier x, pos⟩ :: t :: ts) next (x, e) := by
  intro n k s hs hn _
  simp only [List.length_cons, Goal.height] at hn
  obtain ⟨n, rfl⟩ : ∃ n', n = n' + 1 := ⟨n - 1, by omega⟩
  have hrest := h n ts.length _ hs (by simp only [Goal.height]; omega) (Nat.le_refl _)
  show Parser.definition (n + 1) (.token ⟨.identifier x, pos⟩ (.token t (prepend ts s))) = _
  rw [Parser.definition]
  refine ok_bind rfl (ok_bind rfl ?_)
  rw [if_pos ht]
  exact ok_bind hrest rfl

variable {i : Item} {b : Enclosure} {first : Bool} {x : i.Result} {xs : List i.Result}

theorem accepts_close (ht : t.lexeme = .mark b.stop) :
    (Goal.items i b first).Accepts [t] next [] := by
  intro n k s _ _ hk
  obtain ⟨k, rfl⟩ : ∃ k', k = k' + 1 := Nat.exists_eq_add_of_le' hk
  have hends : Parser.endsList b.stop t.lexeme = true := by simp [Parser.endsList, ht]
  refine ok_bind rfl ?_
  rw [if_pos hends]
  exact expect_bind ht rfl

theorem accepts_trailing (ht : t.lexeme = .mark b.separator) (hu : u.lexeme = .mark b.stop) :
    (Goal.items i b false).Accepts [t, u] next [] := by
  intro n k s _ _ hk
  obtain ⟨k, rfl⟩ : ∃ k', k = k' + 1 := Nat.exists_eq_add_of_le' (Nat.le_of_succ_le hk)
  have hends : Parser.endsList b.stop u.lexeme = true := by simp [Parser.endsList, hu]
  refine ok_bind rfl ?_
  rw [if_neg (b.separator_endsList ht)]
  refine expect_bind ht (ok_bind rfl ?_)
  rw [if_pos hends]
  exact expect_bind hu rfl

theorem accepts_itemFirst (ht : t.lexeme.Opens)
    (hfirst : (Goal.item i).Accepts (t :: ts) (ahead us next) x)
    (hrest : (Goal.items i b false).Accepts us next xs) :
    (Goal.items i b true).Accepts (t :: ts ++ us) next (x :: xs) := by
  intro n k s hs hn hk
  have hheight := Goal.height_item i
  simp only [List.length_append, List.length_cons, Goal.height] at hn hk
  obtain ⟨k, rfl⟩ : ∃ k', k = k' + 1 := ⟨k - 1, by omega⟩
  have hitem := hfirst n (t :: ts).length _ (hs.prepend us) (by rw [List.length_cons]; omega)
    (Nat.le_refl _)
  have hitems := hrest n k _ hs (by simp only [Goal.height]; omega) (by omega)
  rw [prepend_append]
  refine ok_bind rfl ?_
  rw [if_neg (ht.endsList b)]
  refine ok_bind rfl (ok_bind rfl ?_)
  rw [if_neg (ht.endsList b)]
  exact ok_bind hitem (ok_bind hitems rfl)

theorem accepts_itemNext (hu : u.lexeme = .mark b.separator) (ht : t.lexeme.Opens)
    (hfirst : (Goal.item i).Accepts (t :: ts) (ahead us next) x)
    (hrest : (Goal.items i b false).Accepts us next xs) :
    (Goal.items i b false).Accepts (u :: (t :: ts ++ us)) next (x :: xs) := by
  intro n k s hs hn hk
  have hheight := Goal.height_item i
  simp only [List.length_append, List.length_cons, Goal.height] at hn hk
  obtain ⟨k, rfl⟩ : ∃ k', k = k' + 1 := ⟨k - 1, by omega⟩
  have hitem := hfirst n (t :: ts).length _ (hs.prepend us) (by rw [List.length_cons]; omega)
    (Nat.le_refl _)
  have hitems := hrest n k _ hs (by simp only [Goal.height]; omega) (by omega)
  show Parser.delimited _ _ _ (k + 1) false (.token u (prepend (t :: ts ++ us) s)) = _
  rw [prepend_append]
  refine ok_bind rfl ?_
  rw [if_neg (b.separator_endsList hu)]
  refine expect_bind hu (ok_bind rfl ?_)
  rw [if_neg (ht.endsList b)]
  exact ok_bind hitem (ok_bind hitems rfl)

end

/-- The parser does what `Reads` says, if it may go deep enough. -/
theorem Reads.accepts {g : Goal} {ts : List Token} {next : Lexeme} {r : g.Result}
    (h : Reads g ts next r) : g.Accepts ts next r := by
  induction h with
  | expression first rest ihfirst ihrest =>
    refine accepts_expression ?_ ihfirst ihrest
    rcases rest.settled with rfl | h
    · exact first.settled
    · exact h
  | chainEnd h => exact accepts_chainEnd h
  | chainMore hc hlevel _ _ _ ihfirst ihrest ihmore =>
    exact accepts_chainMore hc hlevel ihfirst ihrest ihmore
  | callsEnd h => exact accepts_callsEnd h
  | callsMore ht _ _ ihlist ihmore => exact accepts_callsMore ht ihlist ihmore
  | operand _ _ ihfirst ihrest => exact accepts_operand ihfirst ihrest
  | leaf h => exact accepts_leaf h
  | paren ht hu _ ih => exact accepts_paren ht hu ih
  | block ht _ ih => exact accepts_block ht ih
  | ifWord ht _ ih => exact accepts_ifWord ht ih
  | lambdaWord ht hf hu _ _ ihlist ihrest => exact accepts_lambdaWord ht hf hu ihlist ihrest
  | letWord ht hf hu _ _ ihlist ihrest => exact accepts_letWord ht hf hu ihlist ihrest
  | withoutElse _ hthen _ h ihfirst ihbranch => exact accepts_withoutElse ihfirst hthen ihbranch h
  | withElse _ hthen _ ht _ ihfirst ihbranch ihrest =>
    exact accepts_withElse ihfirst hthen ihbranch ht ihrest
  | name => exact fun _ _ _ _ _ _ => rfl
  | undefined h => exact accepts_undefined h
  | defined ht _ ih => exact accepts_defined ht ih
  | close ht => exact accepts_close ht
  | trailing ht hu => exact accepts_trailing ht hu
  | itemFirst first _ ihfirst ihrest =>
    obtain ⟨t, ts, rfl, ht⟩ := first.opened
    exact accepts_itemFirst ht ihfirst ihrest
  | itemNext hu first _ ihfirst ihrest =>
    obtain ⟨t, ts, rfl, ht⟩ := first.opened
    exact accepts_itemNext hu ht ihfirst ihrest

/-! ## Programs -/

/-- Expressions with semicolons between them, up to the end of the input. -/
inductive ReadsProgram : List Token → List Node → Prop
  | nil : ReadsProgram [] []
  | last {ts : List Token} {e : Node} (h : Reads (.item .expression) ts .endOfInput e) :
      ReadsProgram ts [e]
  | cons {ts us : List Token} {t : Token} {e : Node} {es : List Node}
      (h : Reads (.item .expression) ts t.lexeme e) (ht : t.lexeme = .mark .semicolon)
      (rest : ReadsProgram us es) : ReadsProgram (ts ++ t :: us) (e :: es)

theorem ReadsProgram.statements {ts : List Token} {es : List Node} (h : ReadsProgram ts es)
    {n : Nat} (hn : ts.length < n) (pos : Pos) :
    Parser.statements n (prepend ts (.finish pos)) = .ok es := by
  have hdepth : ∀ ts (s : Stream), 4 * ts.length + 3 ≤ Parser.depth (prepend ts s) := by
    intro ts s
    rw [Parser.depth, length_prepend]
    omega
  induction h generalizing n with
  | nil =>
    obtain ⟨n, rfl⟩ : ∃ n', n = n' + 1 := ⟨n - 1, by omega⟩
    rfl
  | @last ts e h =>
    obtain ⟨n, rfl⟩ : ∃ n', n = n' + 1 := ⟨n - 1, by omega⟩
    have hfinish : (Stream.finish pos).Shows .endOfInput := ⟨_, rfl, rfl⟩
    have hexpression := h.accepts _ ts.length _ hfinish (hdepth ts (.finish pos)) (Nat.le_refl _)
    obtain ⟨t, ts, rfl, ht⟩ := h.opened
    refine ok_bind rfl ?_
    rw [if_neg ht.1]
    exact ok_bind hexpression rfl
  | @cons ts us t e es h ht rest ih =>
    obtain ⟨n, rfl⟩ : ∃ n', n = n' + 1 := ⟨n - 1, by omega⟩
    have hshows : (prepend (t :: us) (.finish pos)).Shows t.lexeme := ⟨t, rfl, rfl⟩
    have hexpression := h.accepts _ ts.length _ hshows (hdepth ts (prepend (t :: us) (.finish pos)))
      (Nat.le_refl _)
    obtain ⟨u, ts, rfl, hu⟩ := h.opened
    simp only [List.length_append, List.length_cons] at hn
    rw [prepend_append]
    refine ok_bind rfl ?_
    rw [if_neg hu.1]
    refine ok_bind hexpression (ok_bind rfl ?_)
    rw [if_neg (by simp [ht])]
    exact expect_bind ht (ok_bind (ih (by omega)) rfl)

/-- The expressions of a stream are made of all its tokens; an error is one of parsing, or the one
at the end of the stream. -/
def Stream.Parses (s : Stream) : Except Error (List Node) → Prop
  | .ok es => ∃ ts pos, s = prepend ts (.finish pos) ∧ ReadsProgram ts es
  | .error e => e.code? = some .parse ∨ s.last = .error e

theorem Stream.Proper.of_prepend {ts : List Token} {s : Stream} (h : (prepend ts s).Proper) :
    s.Proper := by
  induction ts with
  | nil => exact h
  | cons t ts ih => exact ih (List.forall_mem_cons.1 h).2

/-- What comes after an expression. -/
theorem parses_rest {n : Nat}
    (ih : ∀ s : Stream, s.Proper → s.Parses (Parser.statements n s)) {ts : List Token} {e : Node}
    {s : Stream} (hs : s.Proper)
    (hreads : ∀ next, s.Shows next → Reads (.item .expression) ts next e) :
    (prepend ts s).Parses (s.peek >>= fun t => if t.lexeme = .endOfInput then pure [e] else
      s.expect (.mark .semicolon) >>= fun s => Parser.statements n s >>= fun es =>
        pure (e :: es)) := by
  cases s with
  | broken e' => exact .inr (last_prepend ts _)
  | finish pos => exact ⟨ts, pos, rfl, .last (hreads _ ⟨_, rfl, rfl⟩)⟩
  | token u s =>
    obtain ⟨hu, hs⟩ := List.forall_mem_cons.1 hs
    show Stream.Parses _ (if u.lexeme = .endOfInput then _ else _)
    rw [if_neg hu]
    by_cases hsemi : u.lexeme = .mark .semicolon
    · have hexpect : (Stream.token u s).expect (.mark .semicolon) = .ok s :=
        ok_bind rfl (if_pos hsemi)
      have hrest := ih s hs
      rw [hexpect]
      show Stream.Parses _ (Parser.statements n s >>= fun es => pure (e :: es))
      cases hy : Parser.statements n s with
      | error e' =>
        rw [hy] at hrest
        exact hrest.imp_right fun hlast => (last_prepend ts _).trans hlast
      | ok es =>
        rw [hy] at hrest
        obtain ⟨us, pos, rfl, hes⟩ := hrest
        refine ⟨ts ++ u :: us, pos, (prepend_append ts (u :: us) _).symm, ?_⟩
        exact .cons (hreads _ ⟨u, rfl, rfl⟩) hsemi hes
    · have hexpect : (Stream.token u s).expect (.mark .semicolon) =
          .error ((Fault.expecting _ _).error u.pos) := if_neg hsemi
      rw [hexpect]
      exact Or.inl rfl

theorem parses_statements (n : Nat) (s : Stream) (hs : s.Proper) :
    s.Parses (Parser.statements n s) := by
  induction n generalizing s with
  | zero =>
    cases s with
    | broken e => exact .inr rfl
    | _ => exact .inl rfl
  | succ n ih =>
    unfold Parser.statements
    cases s with
    | broken e => exact .inr rfl
    | finish pos => exact ⟨[], pos, rfl, .nil⟩
    | token t rest =>
      have hmeets := Goal.meets (Parser.depth (.token t rest)) 0 (.item .expression) (.token t rest)
      show Stream.Parses _ (if t.lexeme = .endOfInput then _ else _)
      rw [if_neg (List.forall_mem_cons.1 hs).1]
      simp only [Goal.parse, Item.parse] at hmeets
      generalize Stream.token t rest = s at hs hmeets ⊢
      cases hx : Parser.expression (Parser.depth s) s with
      | error e =>
        rw [hx] at hmeets
        exact hmeets
      | ok x =>
        rw [hx] at hmeets
        obtain ⟨ts, rfl, hreads⟩ := hmeets
        exact parses_rest ih hs.of_prepend hreads

/-- The position of the first of some tokens before the end of the input. -/
def firstPos (pos : Pos) : List Token → Pos
  | [] => pos
  | t :: _ => t.pos

theorem peek_prepend_finish (ts : List Token) (pos : Pos) :
    ∃ t, (prepend ts (.finish pos)).peek = .ok t ∧ t.pos = firstPos pos ts := by
  cases ts <;> exact ⟨_, rfl, rfl⟩

namespace Program

theorem ofStream_of_reads {ts : List Token} {es : List Node} (h : ReadsProgram ts es) (pos : Pos) :
    ofStream (prepend ts (.finish pos)) = .ok ⟨firstPos pos ts, es⟩ := by
  obtain ⟨t, ht, ht'⟩ := peek_prepend_finish ts pos
  have hlt : ts.length < (prepend ts (.finish pos)).length + 1 := by
    rw [length_prepend]
    omega
  rw [← ht']
  exact ok_bind ht (ok_bind (h.statements hlt pos) rfl)

theorem ofStream_eq_ok_iff {s : Stream} (hs : s.Proper) {p : Program} :
    ofStream s = .ok p ↔ ∃ ts pos, s = prepend ts (.finish pos) ∧ ReadsProgram ts p.body ∧
      p.pos = firstPos pos ts := by
  have hparses := parses_statements (s.length + 1) s hs
  constructor
  · intro h
    cases hbody : Parser.statements (s.length + 1) s with
    | error e =>
      unfold ofStream at h
      rw [hbody] at h
      cases hp : s.peek <;> rw [hp] at h <;> cases h
    | ok body =>
      rw [hbody] at hparses
      obtain ⟨ts, pos, rfl, hreads⟩ := hparses
      obtain ⟨t, ht, hpos⟩ := peek_prepend_finish ts pos
      have hok : ofStream (prepend ts (.finish pos)) = .ok ⟨t.pos, body⟩ :=
        ok_bind ht (ok_bind hbody rfl)
      cases hok.symm.trans h
      exact ⟨ts, pos, rfl, hreads, hpos⟩
  · rintro ⟨ts, pos, rfl, hreads, hpos⟩
    rw [ofStream_of_reads hreads, ← hpos]

/-- The program of a source, in terms of its tokens. -/
theorem parse_eq_ok_iff {source : Text} {p : Program} :
    parse source = .ok p ↔ ∃ ts pos, Stream.ofSource source = prepend ts (.finish pos) ∧
      ReadsProgram ts p.body ∧ p.pos = firstPos pos ts :=
  ofStream_eq_ok_iff (proper_scanWithin _ _)

theorem code_of_ofStream_error {s : Stream} (hs : s.Proper) {e : Error}
    (h : ofStream s = .error e) : e.code? = some .parse ∨ s.last = .error e := by
  have hparses := parses_statements (s.length + 1) s hs
  unfold ofStream at h
  cases hbody : Parser.statements (s.length + 1) s with
  | error e' =>
    rw [hbody] at h hparses
    cases s with
    | broken e'' =>
      cases h
      exact .inr rfl
    | _ =>
      cases h
      exact hparses
  | ok body =>
    rw [hbody] at h
    cases s with
    | broken e' =>
      cases h
      exact .inr rfl
    | _ => cases h

/-- A source without a program has an error of scanning or of parsing. -/
theorem code_of_parse_error {source : Text} {e : Error} (h : parse source = .error e) :
    e.code? = some .lex ∨ e.code? = some .parse := by
  rcases code_of_ofStream_error (proper_scanWithin _ _) h with hcode | hlast
  · exact .inr hcode
  · exact .inl (code_last_scanWithin hlast)

end Program

end Mycel
