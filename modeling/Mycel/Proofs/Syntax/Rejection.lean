import Mycel.Proofs.Syntax.Refusal

/-!
# The parser fails where it stops

Where `Stops` says that the parser gives up, it fails with the fault given there. It needs no more
depth than the tokens before that place take, and what comes after the lexeme that it found makes no
difference (`Stops.fails`, and `Program.ofStream_of_stops` for programs).
-/

namespace Mycel

open Mycel.Stream

/-- With depth enough for `m` tokens, the function for a goal fails. -/
def Goal.Fails (g : Goal) (m : Nat) (s : Stream) (e : Error) : Prop :=
  ∀ n k, 4 * m + g.height ≤ n → m < k → g.parse n k s = .error e

theorem Goal.fails_of_succ {g : Goal} {m : Nat} {s : Stream} {e : Error} (hg : g.height ≠ 0)
    (h : ∀ n k, 4 * m + g.height ≤ n + 1 → g.parse (n + 1) k s = .error e) : g.Fails m s e := by
  intro n k hn _
  obtain ⟨n, rfl⟩ : ∃ n', n = n' + 1 := ⟨n - 1, by omega⟩
  exact h n k hn

theorem error_bind {ε α β : Type} {x : Except ε α} {e : ε} (hx : x = .error e)
    (f : α → Except ε β) : (x >>= f) = .error e := by
  rw [hx]
  rfl

theorem Stream.expect_error {α : Type} {s : Stream} {t : Token} {l : Lexeme} (ht : s.peek = .ok t)
    (hl : t.lexeme ≠ l) (f : Stream → Except Error α) :
    (s.expect l >>= f) = .error ((l.missing t.lexeme).error t.pos) :=
  error_bind (ok_bind ht (if_neg hl)) f

section

variable {m : Nat} {s : Stream} {t u : Token} {ts us vs : List Token} {l : Lexeme} {a : Node}
  {e : Error}

theorem Goal.Fails.parse {g : Goal} (h : g.Fails m s e) {n : Nat} (hn : 4 * m + g.height ≤ n)
    (hm : m < n) : g.parse n n s = .error e := h n n hn hm

theorem fails_operand (h : Goal.operand.Fails m s e) : (Goal.item .expression).Fails m s e := by
  refine Goal.fails_of_succ (by simp [Goal.height]) fun n k hn => ?_
  simp only [Goal.height] at hn
  have hoperand := h.parse (n := n) (by simp only [Goal.height]; omega) (by omega)
  show Parser.expression (n + 1) s = _
  rw [Parser.expression]
  exact error_bind hoperand _

theorem fails_chain (first : Reads .operand ts l a) (hs : s.Shows l)
    (h : (Goal.chain a 0).Fails m s e) :
    (Goal.item .expression).Fails (ts.length + m) (prepend ts s) e := by
  refine Goal.fails_of_succ (by simp [Goal.height]) fun n k hn => ?_
  simp only [Goal.height] at hn
  have hoperand := first.accepts n n s hs (by simp only [Goal.height]; omega) (by omega)
  have hchain := h.parse (n := n) (by simp only [Goal.height]; omega) (by omega)
  show Parser.expression (n + 1) _ = _
  rw [Parser.expression]
  exact ok_bind hoperand (error_bind hchain _)

theorem chain_link {c : Connective} {level : Nat} (hc : Parser.connective? t.lexeme = some c)
    (hlevel : level < c.precedence) (left : Node) (n : Nat) (s : Stream) :
    Parser.chain (n + 1) left level (.token t s) = (Parser.operand n s >>= fun x =>
      Parser.chain n x.1 c.precedence x.2 >>= fun y =>
        Parser.chain n (Parser.combine c left y.1) level y.2) := by
  rw [Parser.chain]
  refine ok_bind rfl ?_
  simp only [hc]
  rw [if_neg (Nat.not_le.2 hlevel)]
  rfl

theorem fails_link {c : Connective} {left : Node} {level : Nat}
    (hc : Parser.connective? t.lexeme = some c) (hlevel : level < c.precedence)
    (h : Goal.operand.Fails m s e) : (Goal.chain left level).Fails (m + 1) (.token t s) e := by
  refine Goal.fails_of_succ (by simp [Goal.height]) fun n k hn => ?_
  simp only [Goal.height] at hn
  have hoperand := h.parse (n := n) (by simp only [Goal.height]; omega) (by omega)
  refine (chain_link hc hlevel left n s).trans ?_
  exact error_bind hoperand _

theorem fails_linkRest {c : Connective} {left : Node} {level : Nat}
    (hc : Parser.connective? t.lexeme = some c) (hlevel : level < c.precedence)
    (first : Reads .operand ts l a) (hs : s.Shows l) (h : (Goal.chain a c.precedence).Fails m s e) :
    (Goal.chain left level).Fails (ts.length + 1 + m) (.token t (prepend ts s)) e := by
  refine Goal.fails_of_succ (by simp [Goal.height]) fun n k hn => ?_
  simp only [Goal.height] at hn
  have hoperand := first.accepts n n s hs (by simp only [Goal.height]; omega) (by omega)
  have hchain := h.parse (n := n) (by simp only [Goal.height]; omega) (by omega)
  refine (chain_link hc hlevel left n _).trans ?_
  exact ok_bind hoperand (error_bind hchain _)

theorem fails_linkMore {c : Connective} {left right : Node} {level : Nat}
    (hc : Parser.connective? t.lexeme = some c) (hlevel : level < c.precedence)
    (first : Reads .operand ts (ahead us l) a) (rest : Reads (.chain a c.precedence) us l right)
    (hs : s.Shows l) (h : (Goal.chain (Parser.combine c left right) level).Fails m s e) :
    (Goal.chain left level).Fails (ts.length + us.length + 1 + m)
      (.token t (prepend (ts ++ us) s)) e := by
  refine Goal.fails_of_succ (by simp [Goal.height]) fun n k hn => ?_
  simp only [Goal.height] at hn
  have hoperand := first.accepts n n _ (hs.prepend us) (by simp only [Goal.height]; omega)
    (by omega)
  have hright := rest.accepts n n s hs (by simp only [Goal.height]; omega) (by omega)
  have hmore := h.parse (n := n) (by simp only [Goal.height]; omega) (by omega)
  refine (chain_link hc hlevel left n _).trans ?_
  rw [prepend_append]
  exact ok_bind hoperand (ok_bind hright hmore)

theorem calls_open (ht : t.lexeme = .mark .openParen) (callee : Node) (n : Nat) (s : Stream) :
    Parser.calls (n + 1) callee (.token t s) =
      ((Goal.items .expression .parens true).parse n n s >>= fun x =>
        Parser.calls n (.call callee.pos callee x.1) x.2) := by
  rw [Parser.calls]
  refine ok_bind rfl ?_
  rw [if_pos ht]
  rfl

theorem fails_arguments (ht : t.lexeme = .mark .openParen)
    (h : (Goal.items .expression .parens true).Fails m s e) :
    (Goal.calls a).Fails (m + 1) (.token t s) e := by
  refine Goal.fails_of_succ (by simp [Goal.height]) fun n k hn => ?_
  simp only [Goal.height] at hn
  have hlist := h.parse (n := n) (by simp only [Goal.height]; omega) (by omega)
  refine (calls_open ht a n _).trans ?_
  exact error_bind hlist _

theorem fails_callsMore {args : List Node} (ht : t.lexeme = .mark .openParen)
    (list : Reads (.items .expression .parens true) ts l args) (hs : s.Shows l)
    (h : (Goal.calls (.call a.pos a args)).Fails m s e) :
    (Goal.calls a).Fails (ts.length + 1 + m) (.token t (prepend ts s)) e := by
  refine Goal.fails_of_succ (by simp [Goal.height]) fun n k hn => ?_
  simp only [Goal.height] at hn
  have hlist := list.accepts n n s hs (by simp only [Goal.height]; omega) (by omega)
  have hmore := h.parse (n := n) (by simp only [Goal.height]; omega) (by omega)
  refine (calls_open ht a n _).trans ?_
  exact ok_bind hlist hmore

theorem fails_primary (h : Goal.primary.Fails m s e) : Goal.operand.Fails m s e := by
  refine Goal.fails_of_succ (by simp [Goal.height]) fun n k hn => ?_
  simp only [Goal.height] at hn
  have hprimary := h.parse (n := n) (by simp only [Goal.height]; omega) (by omega)
  show Parser.operand (n + 1) s = _
  rw [Parser.operand]
  exact error_bind hprimary _

theorem fails_calls (first : Reads .primary ts l a) (hs : s.Shows l)
    (h : (Goal.calls a).Fails m s e) : Goal.operand.Fails (ts.length + m) (prepend ts s) e := by
  refine Goal.fails_of_succ (by simp [Goal.height]) fun n k hn => ?_
  simp only [Goal.height] at hn
  have hprimary := first.accepts n n s hs (by simp only [Goal.height]; omega) (by omega)
  have hcalls := h.parse (n := n) (by simp only [Goal.height]; omega) (by omega)
  show Parser.operand (n + 1) _ = _
  rw [Parser.operand]
  exact ok_bind hprimary hcalls

/-! ### Primary expressions -/

theorem fails_paren (ht : t.lexeme = .mark .openParen) (h : (Goal.item .expression).Fails m s e) :
    Goal.primary.Fails (m + 1) (.token t s) e := by
  refine Goal.fails_of_succ (by simp [Goal.height]) fun n k hn => ?_
  simp only [Goal.height] at hn
  have hinside := h.parse (n := n) (by simp only [Goal.height]; omega) (by omega)
  show Parser.primary (n + 1) _ = _
  rw [Parser.primary]
  refine ok_bind rfl ?_
  simp only [ht]
  exact error_bind hinside _

theorem fails_block (ht : t.lexeme = .mark .openBrace)
    (h : (Goal.items .expression .braces true).Fails m s e) :
    Goal.primary.Fails (m + 1) (.token t s) e := by
  refine Goal.fails_of_succ (by simp [Goal.height]) fun n k hn => ?_
  simp only [Goal.height] at hn
  have hlist := h.parse (n := n) (by simp only [Goal.height]; omega) (by omega)
  show Parser.primary (n + 1) _ = _
  rw [Parser.primary]
  refine ok_bind rfl ?_
  simp only [ht]
  exact error_bind hlist _

theorem fails_ifWord (ht : t.lexeme = .keyword .ifWord)
    (h : (Goal.conditional t.pos).Fails m s e) : Goal.primary.Fails (m + 1) (.token t s) e := by
  refine Goal.fails_of_succ (by simp [Goal.height]) fun n k hn => ?_
  simp only [Goal.height] at hn
  have hconditional := h.parse (n := n) (by simp only [Goal.height]; omega) (by omega)
  show Parser.primary (n + 1) _ = _
  rw [Parser.primary]
  refine ok_bind rfl ?_
  simp only [ht]
  exact hconditional

/-- What the parser does after `lambda` or `let`. -/
theorem Heads.primary {k : Keyword} {i : Item} (hk : Heads k i) (ht : t.lexeme = .keyword k)
    (n : Nat) (s : Stream) : ∃ make : Option Text → List i.Result → Node → Node,
      Parser.primary (n + 1) (.token t s) = (Parser.optionalName s >>= fun x =>
        x.2.expect (.mark .openParen) >>= fun s =>
          (Goal.items i .parens true).parse n n s >>= fun y =>
            Parser.expression n y.2 >>= fun z => pure (make x.1 y.1 z.1, z.2)) := by
  rw [Parser.primary]
  cases hk with
  | lambdaWord =>
    refine ⟨.lambda t.pos, ok_bind rfl ?_⟩
    simp only [ht]
    rfl
  | letWord =>
    refine ⟨Parser.binding t.pos, ok_bind rfl ?_⟩
    simp only [ht]
    rfl

variable {k : Keyword} {i : Item} {names : List Token} {f : Option Text}

theorem fails_header (hk : Heads k i) (ht : t.lexeme = .keyword k) (hf : ReadsName names f)
    (hu : u.lexeme = .mark .openParen) (h : (Goal.items i .parens true).Fails m s e) :
    Goal.primary.Fails (names.length + 2 + m) (.token t (prepend (names ++ [u]) s)) e := by
  refine Goal.fails_of_succ (by simp [Goal.height]) fun n k hn => ?_
  simp only [Goal.height] at hn
  have hlist := h.parse (n := n) (by simp only [Goal.height]; omega) (by omega)
  obtain ⟨make, hmake⟩ := hk.primary ht n (prepend (names ++ [u]) s)
  refine Eq.trans hmake ?_
  rw [prepend_append]
  exact ok_bind (hf.parse hu s) (expect_bind hu (error_bind hlist _))

theorem fails_body {xs : List i.Result} (hk : Heads k i) (ht : t.lexeme = .keyword k)
    (hf : ReadsName names f) (hu : u.lexeme = .mark .openParen)
    (list : Reads (.items i .parens true) ts l xs) (hs : s.Shows l)
    (h : (Goal.item .expression).Fails m s e) :
    Goal.primary.Fails (names.length + (ts.length + 1) + 1 + m)
      (.token t (prepend (names ++ u :: ts) s)) e := by
  refine Goal.fails_of_succ (by simp [Goal.height]) fun n k hn => ?_
  simp only [Goal.height] at hn
  have hlist := list.accepts n n s hs (by simp only [Goal.height]; omega) (by omega)
  have hbody := h.parse (n := n) (by simp only [Goal.height]; omega) (by omega)
  obtain ⟨make, hmake⟩ := hk.primary ht n (prepend (names ++ u :: ts) s)
  refine Eq.trans hmake ?_
  rw [prepend_append]
  exact ok_bind (hf.parse hu _) (expect_bind hu (ok_bind hlist (error_bind hbody _)))

/-! ### Conditionals -/

theorem fails_condition {pos : Pos} (h : (Goal.item .expression).Fails m s e) :
    (Goal.conditional pos).Fails m s e := by
  refine Goal.fails_of_succ (by simp [Goal.height]) fun n k hn => ?_
  simp only [Goal.height] at hn
  have hcondition := h.parse (n := n) (by simp only [Goal.height]; omega) (by omega)
  show Parser.conditional (n + 1) pos s = _
  rw [Parser.conditional]
  exact error_bind hcondition _

theorem fails_whenTrue {pos : Pos} (first : Reads (.item .expression) ts (ahead us l) a)
    (hthen : ReadsThen us l) (hs : s.Shows l) (h : (Goal.item .expression).Fails m s e) :
    (Goal.conditional pos).Fails (ts.length + us.length + m) (prepend (ts ++ us) s) e := by
  refine Goal.fails_of_succ (by simp [Goal.height]) fun n k hn => ?_
  simp only [Goal.height] at hn
  have hcondition := first.accepts n n _ (hs.prepend us) (by simp only [Goal.height]; omega)
    (by omega)
  have hbranch := h.parse (n := n) (by simp only [Goal.height]; omega) (by omega)
  show Parser.conditional (n + 1) pos _ = _
  rw [Parser.conditional, prepend_append]
  exact ok_bind hcondition (hthen.parse hs (error_bind hbranch _))

theorem fails_whenFalse {pos : Pos} {whenTrue : Node}
    (first : Reads (.item .expression) ts (ahead (us ++ vs) t.lexeme) a)
    (hthen : ReadsThen us (ahead vs t.lexeme))
    (branch : Reads (.item .expression) vs t.lexeme whenTrue)
    (ht : t.lexeme = .keyword .elseWord) (h : (Goal.item .expression).Fails m s e) :
    (Goal.conditional pos).Fails (ts.length + (us.length + (vs.length + 1)) + m)
      (prepend (ts ++ (us ++ (vs ++ [t]))) s) e := by
  refine Goal.fails_of_succ (by simp [Goal.height]) fun n k hn => ?_
  simp only [Goal.height] at hn
  have hshows : (Stream.token t s).Shows t.lexeme := ⟨t, rfl, rfl⟩
  have hcondition := first.accepts n n _ (hshows.prepend (us ++ vs))
    (by simp only [Goal.height]; omega) (by omega)
  have htrue := branch.accepts n n _ hshows (by simp only [Goal.height]; omega) (by omega)
  have hfalse := h.parse (n := n) (by simp only [Goal.height]; omega) (by omega)
  rw [prepend_append] at hcondition
  show Parser.conditional (n + 1) pos _ = _
  simp only [Parser.conditional, prepend_append]
  refine ok_bind hcondition (hthen.parse (hshows.prepend vs) (ok_bind htrue (ok_bind rfl ?_)))
  rw [if_pos ht]
  exact error_bind hfalse _

/-! ### Lists and their items -/

theorem fails_name (h : (Goal.item .name).Fails m s e) : (Goal.item .definition).Fails m s e := by
  refine Goal.fails_of_succ (by simp [Goal.height]) fun n k hn => ?_
  simp only [Goal.height] at hn
  have hname : Parser.name s = .error e :=
    h n (m + 1) (by simp only [Goal.height]; omega) (Nat.lt_succ_self m)
  show Parser.definition (n + 1) s = _
  rw [Parser.definition]
  exact error_bind hname _

theorem fails_definition {x : Text} {pos : Pos} (ht : t.lexeme = .operator (bytes "="))
    (h : (Goal.item .expression).Fails m s e) :
    (Goal.item .definition).Fails (m + 2) (.token ⟨.identifier x, pos⟩ (.token t s)) e := by
  refine Goal.fails_of_succ (by simp [Goal.height]) fun n k hn => ?_
  simp only [Goal.height] at hn
  have hvalue := h.parse (n := n) (by simp only [Goal.height]; omega) (by omega)
  show Parser.definition (n + 1) _ = _
  rw [Parser.definition]
  refine ok_bind rfl (ok_bind rfl ?_)
  rw [if_pos ht]
  exact error_bind hvalue _

variable {b : Enclosure} {x : i.Result}

theorem fails_itemFirst (hs : s.Shows l) (hl : ¬ Parser.endsList b.stop l = true)
    (h : (Goal.item i).Fails m s e) : (Goal.items i b true).Fails m s e := by
  intro n k hn hk
  obtain ⟨k, rfl⟩ : ∃ k', k = k' + 1 := ⟨k - 1, by omega⟩
  have hheight := Goal.height_item i
  have hitem : i.parse n s = .error e :=
    h n (m + 1) (by simp only [Goal.height] at hn; omega) (Nat.lt_succ_self m)
  obtain ⟨t, ht, rfl⟩ := hs
  refine ok_bind ht ?_
  rw [if_neg hl]
  refine ok_bind rfl (ok_bind ht ?_)
  rw [if_neg hl]
  exact error_bind hitem _

theorem fails_afterFirst (first : Reads (.item i) ts l x) (hs : s.Shows l)
    (h : (Goal.items i b false).Fails m s e) :
    (Goal.items i b true).Fails (ts.length + m) (prepend ts s) e := by
  intro n k hn hk
  obtain ⟨k, rfl⟩ : ∃ k', k = k' + 1 := ⟨k - 1, by omega⟩
  have hheight := Goal.height_item i
  simp only [Goal.height] at hn
  have hitem := first.accepts n ts.length s hs (by omega) (Nat.le_refl _)
  obtain ⟨u, us, rfl, hu⟩ := first.opened
  rw [List.length_cons] at hn hk
  have hitems := h n k (by simp only [Goal.height]; omega) (by omega)
  refine ok_bind rfl ?_
  rw [if_neg (hu.endsList b)]
  refine ok_bind rfl (ok_bind rfl ?_)
  rw [if_neg (hu.endsList b)]
  exact ok_bind hitem (error_bind hitems _)

theorem fails_itemNext (ht : t.lexeme = .mark b.separator) (hs : s.Shows l)
    (hl : ¬ Parser.endsList b.stop l = true) (h : (Goal.item i).Fails m s e) :
    (Goal.items i b false).Fails (m + 1) (.token t s) e := by
  intro n k hn hk
  obtain ⟨k, rfl⟩ : ∃ k', k = k' + 1 := ⟨k - 1, by omega⟩
  have hheight := Goal.height_item i
  have hitem : i.parse n s = .error e :=
    h n (m + 1) (by simp only [Goal.height] at hn; omega) (Nat.lt_succ_self m)
  obtain ⟨u, hu, rfl⟩ := hs
  refine ok_bind rfl ?_
  rw [if_neg (b.separator_endsList ht)]
  refine expect_bind ht (ok_bind hu ?_)
  rw [if_neg hl]
  exact error_bind hitem _

theorem fails_afterNext (ht : t.lexeme = .mark b.separator) (first : Reads (.item i) ts l x)
    (hs : s.Shows l) (h : (Goal.items i b false).Fails m s e) :
    (Goal.items i b false).Fails (ts.length + 1 + m) (.token t (prepend ts s)) e := by
  intro n k hn hk
  obtain ⟨k, rfl⟩ : ∃ k', k = k' + 1 := ⟨k - 1, by omega⟩
  have hheight := Goal.height_item i
  simp only [Goal.height] at hn
  have hitem := first.accepts n ts.length s hs (by omega) (Nat.le_refl _)
  have hitems := h n k (by simp only [Goal.height]; omega) (by omega)
  obtain ⟨u, us, rfl, hu⟩ := first.opened
  refine ok_bind rfl ?_
  rw [if_neg (b.separator_endsList ht)]
  refine expect_bind ht (ok_bind rfl ?_)
  rw [if_neg (hu.endsList b)]
  exact ok_bind hitem (error_bind hitems _)

/-! ### Giving up -/

theorem fails_of_refuses_primary (ht : s.peek = .ok t) (hl : t.lexeme.startsPrimary = false) :
    Goal.primary.Fails 0 s ((Fault.unexpectedToken t.lexeme.describe).error t.pos) := by
  refine Goal.fails_of_succ (by simp [Goal.height]) fun n k hn => ?_
  simp only [Goal.height] at hn
  have hunexpected : s.unexpected = (Fault.unexpectedToken t.lexeme.describe).error t.pos := by
    rw [Stream.unexpected, ht]
  show Parser.primary (n + 1) s = _
  rw [Parser.primary]
  refine ok_bind ht ?_
  rw [← hunexpected]
  split
  case h_11 => rfl
  all_goals
    rename_i hstart
    rw [hstart] at hl
    cases hl

theorem fails_of_refuses_paren (ht : t.lexeme = .mark .openParen)
    (inside : Reads (.item .expression) ts u.lexeme a) (hu : s.peek = .ok u)
    (hl : u.lexeme ≠ .mark .closeParen) : Goal.primary.Fails (ts.length + 1)
      (.token t (prepend ts s)) ((Lexeme.missing (.mark .closeParen) u.lexeme).error u.pos) := by
  refine Goal.fails_of_succ (by simp [Goal.height]) fun n k hn => ?_
  simp only [Goal.height] at hn
  have hinside := inside.accepts n n s ⟨u, hu, rfl⟩ (by simp only [Goal.height]; omega) (by omega)
  show Parser.primary (n + 1) _ = _
  rw [Parser.primary]
  refine ok_bind rfl ?_
  simp only [ht]
  exact ok_bind hinside (expect_error hu hl _)

theorem fails_of_refuses_header (hk : Heads k i) (ht : t.lexeme = .keyword k)
    (hf : ReadsName names f) (hu : s.peek = .ok u)
    (hname : names = [] → ∀ x, u.lexeme ≠ .identifier x) (hl : u.lexeme ≠ .mark .openParen) :
    Goal.primary.Fails (names.length + 1) (.token t (prepend names s))
      ((Lexeme.missing (.mark .openParen) u.lexeme).error u.pos) := by
  refine Goal.fails_of_succ (by simp [Goal.height]) fun n k hn => ?_
  simp only [Goal.height] at hn
  obtain ⟨make, hmake⟩ := hk.primary ht n (prepend names s)
  have hoptional : Parser.optionalName (prepend names s) = .ok (f, s) := by
    cases hf with
    | none =>
      refine ok_bind hu ?_
      split
      · exact absurd ‹_› (hname rfl _)
      · rfl
    | some name pos => rfl
  exact hmake.trans (ok_bind hoptional (expect_error hu hl _))

theorem fails_of_refuses_thenWord {pos : Pos} (first : Reads (.item .expression) ts u.lexeme a)
    (hu : s.peek = .ok u) (hbrace : u.lexeme ≠ .mark .openBrace)
    (hl : u.lexeme ≠ .keyword .thenWord) : (Goal.conditional pos).Fails ts.length (prepend ts s)
      ((Lexeme.missing (.keyword .thenWord) u.lexeme).error u.pos) := by
  refine Goal.fails_of_succ (by simp [Goal.height]) fun n k hn => ?_
  simp only [Goal.height] at hn
  have hcondition := first.accepts n n s ⟨u, hu, rfl⟩ (by simp only [Goal.height]; omega) (by omega)
  show Parser.conditional (n + 1) pos _ = _
  rw [Parser.conditional]
  refine ok_bind hcondition (ok_bind hu ?_)
  rw [if_neg hbrace]
  exact expect_error hu hl _

theorem fails_of_refuses_stop {first : Bool} (hu : s.peek = .ok u)
    (hl : u.lexeme = .endOfInput) : (Goal.items i b first).Fails 0 s
      ((Lexeme.missing (.mark b.stop) .endOfInput).error u.pos) := by
  intro n k _ hk
  obtain ⟨k, rfl⟩ : ∃ k', k = k' + 1 := ⟨k - 1, by omega⟩
  refine ok_bind hu ?_
  rw [if_pos (by simp [Parser.endsList, hl]), ← hl]
  exact expect_error hu (by simp [hl]) _

theorem fails_of_refuses_stopNext (ht : t.lexeme = .mark b.separator) (hu : s.peek = .ok u)
    (hl : u.lexeme = .endOfInput) : (Goal.items i b false).Fails 1 (.token t s)
      ((Lexeme.missing (.mark b.stop) .endOfInput).error u.pos) := by
  intro n k _ hk
  obtain ⟨k, rfl⟩ : ∃ k', k = k' + 1 := ⟨k - 1, by omega⟩
  refine ok_bind rfl ?_
  rw [if_neg (b.separator_endsList ht)]
  refine expect_bind ht (ok_bind hu ?_)
  rw [if_pos (by simp [Parser.endsList, hl]), ← hl]
  exact expect_error hu (by simp [hl]) _

theorem fails_of_refuses_separator (hu : s.peek = .ok u)
    (hends : ¬ Parser.endsList b.stop u.lexeme = true) (hl : u.lexeme ≠ .mark b.separator) :
    (Goal.items i b false).Fails 0 s
      ((Lexeme.missing (.mark b.separator) u.lexeme).error u.pos) := by
  intro n k _ hk
  obtain ⟨k, rfl⟩ : ∃ k', k = k' + 1 := ⟨k - 1, by omega⟩
  refine ok_bind hu ?_
  rw [if_neg hends]
  exact expect_error hu hl _

end

theorem Refuses.fails {g : Goal} {ts : List Token} {s : Stream} {u : Token} {fault : Fault}
    (h : Refuses g ts u.lexeme fault) (hu : s.peek = .ok u) :
    g.Fails ts.length (prepend ts s) (fault.error u.pos) := by
  generalize hl : u.lexeme = l at h
  cases h with
  | primary hstart =>
    subst hl
    exact fails_of_refuses_primary hu hstart
  | name hname =>
    subst hl
    intro n k _ _
    refine ok_bind hu ?_
    split
    · exact absurd ‹_› (hname _)
    · rfl
  | paren ht inside hne =>
    subst hl
    exact fails_of_refuses_paren ht inside hu hne
  | header hk ht hf hname hne =>
    subst hl
    exact fails_of_refuses_header hk ht hf hu hname hne
  | thenWord first hbrace hne =>
    subst hl
    exact fails_of_refuses_thenWord first hu hbrace hne
  | separator hends hne =>
    subst hl
    exact fails_of_refuses_separator hu hends hne
  | stop => exact fails_of_refuses_stop hu hl
  | stopNext ht => exact fails_of_refuses_stopNext ht hu hl

/-- A goal fails with the goal that it goes on with. -/
theorem Enters.fails {g g' : Goal} {ts : List Token} {l : Lexeme} (h : Enters g ts l g')
    {s : Stream} (hs : s.Shows l) {m : Nat} {e : Error} (hfails : g'.Fails m s e) :
    g.Fails (ts.length + m) (prepend ts s) e := by
  cases h with
  | operand => exact (Nat.zero_add m).symm ▸ fails_operand hfails
  | chain first => exact fails_chain first hs hfails
  | link hc hlevel => exact Nat.add_comm m 1 ▸ fails_link hc hlevel hfails
  | linkRest hc hlevel first => exact fails_linkRest hc hlevel first hs hfails
  | linkMore hc hlevel first rest =>
    rw [List.length_cons, List.length_append]
    exact fails_linkMore hc hlevel first rest hs hfails
  | arguments ht => exact Nat.add_comm m 1 ▸ fails_arguments ht hfails
  | callsMore ht list => exact fails_callsMore ht list hs hfails
  | primary => exact (Nat.zero_add m).symm ▸ fails_primary hfails
  | calls first => exact fails_calls first hs hfails
  | paren ht => exact Nat.add_comm m 1 ▸ fails_paren ht hfails
  | block ht => exact Nat.add_comm m 1 ▸ fails_block ht hfails
  | ifWord ht => exact Nat.add_comm m 1 ▸ fails_ifWord ht hfails
  | header hk ht hf hu =>
    rw [List.length_cons, List.length_append]
    exact fails_header hk ht hf hu hfails
  | body hk ht hf hu list =>
    rw [List.length_cons, List.length_append, List.length_cons]
    exact fails_body hk ht hf hu list hs hfails
  | condition => exact (Nat.zero_add m).symm ▸ fails_condition hfails
  | whenTrue first hthen =>
    rw [List.length_append]
    exact fails_whenTrue first hthen hs hfails
  | whenFalse first hthen branch ht =>
    rw [List.length_append, List.length_append, List.length_append]
    exact fails_whenFalse first hthen branch ht hfails
  | name => exact (Nat.zero_add m).symm ▸ fails_name hfails
  | definition ht => exact Nat.add_comm m 2 ▸ fails_definition ht hfails
  | itemFirst hl => exact (Nat.zero_add m).symm ▸ fails_itemFirst hs hl hfails
  | afterFirst first => exact fails_afterFirst first hs hfails
  | itemNext ht hl => exact Nat.add_comm m 1 ▸ fails_itemNext ht hs hl hfails
  | afterNext ht first => exact fails_afterNext ht first hs hfails

/-- Where the parser stops, it fails, no matter what comes after the lexeme that it found. -/
theorem Stops.fails {g : Goal} {ts : List Token} {s : Stream} {u : Token} {fault : Fault}
    (h : Stops g ts u.lexeme fault) (hu : s.peek = .ok u) :
    g.Fails ts.length (prepend ts s) (fault.error u.pos) := by
  have hshows : s.Shows u.lexeme := ⟨u, hu, rfl⟩
  generalize hl : u.lexeme = l at h
  induction h with
  | here h =>
    subst hl
    exact h.fails hu
  | @inside g g' ts us next fault henters _ ih =>
    subst hl
    rw [List.length_append, prepend_append]
    exact henters.fails (hshows.prepend us) (ih rfl)

/-! ## Programs -/

/-- After some tokens, no program goes on with the lexeme `next`. -/
inductive StopsProgram : List Token → Lexeme → Fault → Prop
  | expression {ts : List Token} {next : Lexeme} {fault : Fault}
      (h : Stops (.item .expression) ts next fault) (hfirst : ahead ts next ≠ .endOfInput) :
      StopsProgram ts next fault
  | semicolon {ts : List Token} {next : Lexeme} {e : Node}
      (h : Reads (.item .expression) ts next e) (hend : next ≠ .endOfInput)
      (hnext : next ≠ .mark .semicolon) :
      StopsProgram ts next (Lexeme.missing (.mark .semicolon) next)
  | rest {ts us : List Token} {t : Token} {next : Lexeme} {fault : Fault} {e : Node}
      (h : Reads (.item .expression) ts t.lexeme e) (ht : t.lexeme = .mark .semicolon)
      (rest : StopsProgram us next fault) : StopsProgram (ts ++ t :: us) next fault

theorem StopsProgram.reports {ts : List Token} {next : Lexeme} {fault : Fault}
    (h : StopsProgram ts next fault) : fault.Reports next := by
  induction h with
  | expression h => exact h.reports
  | semicolon => exact ⟨rfl, rfl, rfl⟩
  | rest _ _ _ ih => exact ih

theorem StopsProgram.statements {ts : List Token} {s : Stream} {u : Token} {fault : Fault}
    (h : StopsProgram ts u.lexeme fault) (hu : s.peek = .ok u) {n : Nat} (hn : ts.length < n) :
    Parser.statements n (prepend ts s) = .error (fault.error u.pos) := by
  have hdepth : ∀ ts (s : Stream), 4 * ts.length + 3 ≤ Parser.depth (prepend ts s) := by
    intro ts s
    rw [Parser.depth, length_prepend]
    omega
  have hshows : s.Shows u.lexeme := ⟨u, hu, rfl⟩
  generalize hl : u.lexeme = l at h hshows
  induction h generalizing n with
  | @expression ts next fault h hfirst =>
    obtain ⟨n, rfl⟩ : ∃ n', n = n' + 1 := ⟨n - 1, by omega⟩
    subst hl
    have hfails := h.fails hu (Parser.depth (prepend ts s)) (ts.length + 1) (hdepth ts s)
      (Nat.lt_succ_self _)
    obtain ⟨t, ht, htl⟩ := hshows.prepend ts
    refine ok_bind ht ?_
    rw [if_neg (htl ▸ hfirst)]
    exact error_bind hfails _
  | @semicolon ts next e h hend hnext =>
    obtain ⟨n, rfl⟩ : ∃ n', n = n' + 1 := ⟨n - 1, by omega⟩
    subst hl
    have hexpression := h.accepts _ ts.length s hshows (hdepth ts s) (Nat.le_refl _)
    obtain ⟨t, ts, rfl, ht⟩ := h.opened
    refine ok_bind rfl ?_
    rw [if_neg ht.1]
    refine ok_bind hexpression (ok_bind hu ?_)
    rw [if_neg hend]
    exact expect_error hu hnext _
  | @rest ts us t next fault e h ht _ ih =>
    obtain ⟨n, rfl⟩ : ∃ n', n = n' + 1 := ⟨n - 1, by omega⟩
    have hexpression := h.accepts _ ts.length (.token t (prepend us s)) ⟨t, rfl, rfl⟩
      (hdepth ts (.token t (prepend us s))) (Nat.le_refl _)
    simp only [List.length_append, List.length_cons] at hn
    obtain ⟨v, ts, rfl, hv⟩ := h.opened
    rw [prepend_append]
    refine ok_bind rfl ?_
    rw [if_neg hv.1]
    refine ok_bind hexpression (ok_bind rfl ?_)
    rw [if_neg (by simp [ht])]
    exact expect_bind ht (error_bind (ih (by omega) hl hshows) _)

theorem blames_statements (n : Nat) (s : Stream) (hs : s.Proper) (hn : s.length < n) :
    s.Blames StopsProgram (Parser.statements n s) := by
  induction n generalizing s with
  | zero => omega
  | succ n ih =>
    unfold Parser.statements
    refine Blames.peek fun t ht => ?_
    split_ifs with hend
    · trivial
    · have hfirst : s.Blames StopsProgram (Parser.expression (Parser.depth s) s) := by
        have hblames := Goal.blames (Parser.depth s) (s.length + 1) (.item .expression) s
          (by simp only [Parser.depth, Goal.height]; omega) (Nat.lt_succ_self _)
        refine hblames.imp fun us next fault hshows h => .expression h ?_
        rwa [hshows.eq ht]
      refine Blames.bind hfirst (Goal.meets (Parser.depth s) 0 (.item .expression) s) ?_
      rintro e s ts rfl he
      rw [length_prepend] at hn
      refine Blames.peek fun u hu => ?_
      split_ifs with hend'
      · trivial
      · refine Blames.expect (by simp) ?_ ?_
        · intro found hfound hne
          rw [List.append_nil]
          exact .semicolon (he found hfound) (hfound.eq hu ▸ hend') hne
        · rintro v s rfl hv
          have hn : ts.length + (s.length + 1) < n + 1 := hn
          have hrest := ih s (List.forall_mem_cons.1 hs.of_prepend).2 (by omega)
          have hstops := hrest.imp fun us next fault _ h =>
            StopsProgram.rest (he v.lexeme ⟨v, rfl, rfl⟩) hv h
          cases hy : Parser.statements n s with
          | ok es => trivial
          | error e' =>
            rw [hy] at hstops
            exact hstops

namespace Program

/-- The error of a stream without a program is about the token at which the parser stops, or it is
the error at the end of the stream. -/
theorem blames_ofStream {s : Stream} (hs : s.Proper) : s.Blames StopsProgram (ofStream s) := by
  have hblames := blames_statements (s.length + 1) s hs (Nat.lt_succ_self _)
  unfold ofStream
  refine Blames.peek fun t _ => ?_
  cases hy : Parser.statements (s.length + 1) s with
  | ok es => trivial
  | error e =>
    rw [hy] at hblames
    exact hblames

theorem ofStream_of_stops {ts : List Token} {s : Stream} {u : Token} {fault : Fault}
    (h : StopsProgram ts u.lexeme fault) (hu : s.peek = .ok u) :
    ofStream (prepend ts s) = .error (fault.error u.pos) := by
  have hshows : s.Shows u.lexeme := ⟨u, hu, rfl⟩
  obtain ⟨t, ht, -⟩ := hshows.prepend ts
  have hlt : ts.length < (prepend ts s).length + 1 := by
    rw [length_prepend]
    omega
  exact ok_bind ht (error_bind (h.statements hu hlt) _)

end Program

end Mycel
