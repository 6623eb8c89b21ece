import Mycel.Proofs.Syntax.Acceptance

/-!
# Where the parser gives up

`Enters` says which goal another one goes on with after some tokens, and `Refuses` where a goal
gives up by itself. `Stops` is to follow the goals to such a place. A function of the parser that
has depth enough fails only there, unless the stream itself ends with an error (`Goal.blames`).
-/

namespace Mycel

open Mycel.Stream

/-- The keywords that come before a list of items in parentheses. -/
inductive Heads : Keyword → Item → Prop
  | lambdaWord : Heads .lambdaWord .name
  | letWord : Heads .letWord .definition

def Lexeme.startsPrimary : Lexeme → Bool
  | .mark .openParen | .mark .openBrace => true
  | .keyword .ifWord | .keyword .trueWord | .keyword .falseWord => true
  | .keyword .lambdaWord | .keyword .letWord => true
  | .identifier _ | .number _ _ | .string _ => true
  | _ => false

/-- After some tokens and before the lexeme `l`, a goal goes on with another one. -/
inductive Enters : Goal → List Token → Lexeme → Goal → Prop
  | operand {l : Lexeme} : Enters (.item .expression) [] l .operand
  | chain {ts : List Token} {l : Lexeme} {a : Node} (first : Reads .operand ts l a) :
      Enters (.item .expression) ts l (.chain a 0)
  | link {t : Token} {c : Connective} {left : Node} {level : Nat} {l : Lexeme}
      (hc : Parser.connective? t.lexeme = some c) (hlevel : level < c.precedence) :
      Enters (.chain left level) [t] l .operand
  | linkRest {t : Token} {c : Connective} {left a : Node} {level : Nat} {ts : List Token}
      {l : Lexeme} (hc : Parser.connective? t.lexeme = some c) (hlevel : level < c.precedence)
      (first : Reads .operand ts l a) :
      Enters (.chain left level) (t :: ts) l (.chain a c.precedence)
  | linkMore {t : Token} {c : Connective} {left a right : Node} {level : Nat} {ts us : List Token}
      {l : Lexeme} (hc : Parser.connective? t.lexeme = some c) (hlevel : level < c.precedence)
      (first : Reads .operand ts (ahead us l) a) (rest : Reads (.chain a c.precedence) us l right) :
      Enters (.chain left level) (t :: (ts ++ us)) l (.chain (Parser.combine c left right) level)
  | arguments {t : Token} {callee : Node} {l : Lexeme} (ht : t.lexeme = .mark .openParen) :
      Enters (.calls callee) [t] l (.items .expression .parens true)
  | callsMore {t : Token} {callee : Node} {args : List Node} {ts : List Token} {l : Lexeme}
      (ht : t.lexeme = .mark .openParen)
      (list : Reads (.items .expression .parens true) ts l args) :
      Enters (.calls callee) (t :: ts) l (.calls (.call callee.pos callee args))
  | primary {l : Lexeme} : Enters .operand [] l .primary
  | calls {ts : List Token} {l : Lexeme} {a : Node} (first : Reads .primary ts l a) :
      Enters .operand ts l (.calls a)
  | paren {t : Token} {l : Lexeme} (ht : t.lexeme = .mark .openParen) :
      Enters .primary [t] l (.item .expression)
  | block {t : Token} {l : Lexeme} (ht : t.lexeme = .mark .openBrace) :
      Enters .primary [t] l (.items .expression .braces true)
  | ifWord {t : Token} {l : Lexeme} (ht : t.lexeme = .keyword .ifWord) :
      Enters .primary [t] l (.conditional t.pos)
  | header {t u : Token} {k : Keyword} {i : Item} {names : List Token} {f : Option Text}
      {l : Lexeme} (hk : Heads k i) (ht : t.lexeme = .keyword k) (hf : ReadsName names f)
      (hu : u.lexeme = .mark .openParen) :
      Enters .primary (t :: (names ++ [u])) l (.items i .parens true)
  | body {t u : Token} {k : Keyword} {i : Item} {names ts : List Token} {f : Option Text}
      {xs : List i.Result} {l : Lexeme} (hk : Heads k i) (ht : t.lexeme = .keyword k)
      (hf : ReadsName names f) (hu : u.lexeme = .mark .openParen)
      (list : Reads (.items i .parens true) ts l xs) :
      Enters .primary (t :: (names ++ u :: ts)) l (.item .expression)
  | condition {pos : Pos} {l : Lexeme} : Enters (.conditional pos) [] l (.item .expression)
  | whenTrue {pos : Pos} {ts us : List Token} {condition : Node} {l : Lexeme}
      (first : Reads (.item .expression) ts (ahead us l) condition) (hthen : ReadsThen us l) :
      Enters (.conditional pos) (ts ++ us) l (.item .expression)
  | whenFalse {pos : Pos} {t : Token} {ts us vs : List Token} {condition whenTrue : Node}
      {l : Lexeme} (first : Reads (.item .expression) ts (ahead (us ++ vs) t.lexeme) condition)
      (hthen : ReadsThen us (ahead vs t.lexeme))
      (branch : Reads (.item .expression) vs t.lexeme whenTrue)
      (ht : t.lexeme = .keyword .elseWord) :
      Enters (.conditional pos) (ts ++ (us ++ (vs ++ [t]))) l (.item .expression)
  | name {l : Lexeme} : Enters (.item .definition) [] l (.item .name)
  | definition {x : Text} {pos : Pos} {t : Token} {l : Lexeme}
      (ht : t.lexeme = .operator (bytes "=")) :
      Enters (.item .definition) [⟨.identifier x, pos⟩, t] l (.item .expression)
  | itemFirst {i : Item} {b : Enclosure} {l : Lexeme} (hl : ¬ Parser.endsList b.stop l = true) :
      Enters (.items i b true) [] l (.item i)
  | afterFirst {i : Item} {b : Enclosure} {ts : List Token} {x : i.Result} {l : Lexeme}
      (first : Reads (.item i) ts l x) : Enters (.items i b true) ts l (.items i b false)
  | itemNext {i : Item} {b : Enclosure} {t : Token} {l : Lexeme}
      (ht : t.lexeme = .mark b.separator) (hl : ¬ Parser.endsList b.stop l = true) :
      Enters (.items i b false) [t] l (.item i)
  | afterNext {i : Item} {b : Enclosure} {t : Token} {ts : List Token} {x : i.Result} {l : Lexeme}
      (ht : t.lexeme = .mark b.separator) (first : Reads (.item i) ts l x) :
      Enters (.items i b false) (t :: ts) l (.items i b false)

/-- The fault of finding a lexeme in the place of another one. -/
def Lexeme.missing (wanted found : Lexeme) : Fault := .expecting wanted.describe found.describe

/-- After some tokens, a goal gives up at the lexeme `l`. -/
inductive Refuses : Goal → List Token → Lexeme → Fault → Prop
  | primary {l : Lexeme} (hl : l.startsPrimary = false) :
      Refuses .primary [] l (.unexpectedToken l.describe)
  | name {l : Lexeme} (hl : ∀ x, l ≠ .identifier x) :
      Refuses (.item .name) [] l (.expecting (bytes "variable name") l.describe)
  | paren {t : Token} {ts : List Token} {l : Lexeme} {e : Node} (ht : t.lexeme = .mark .openParen)
      (inside : Reads (.item .expression) ts l e) (hl : l ≠ .mark .closeParen) :
      Refuses .primary (t :: ts) l (Lexeme.missing (.mark .closeParen) l)
  | header {t : Token} {k : Keyword} {i : Item} {names : List Token} {f : Option Text} {l : Lexeme}
      (hk : Heads k i) (ht : t.lexeme = .keyword k) (hf : ReadsName names f)
      (hname : names = [] → ∀ x, l ≠ .identifier x) (hl : l ≠ .mark .openParen) :
      Refuses .primary (t :: names) l (Lexeme.missing (.mark .openParen) l)
  | thenWord {pos : Pos} {ts : List Token} {l : Lexeme} {e : Node}
      (first : Reads (.item .expression) ts l e) (hbrace : l ≠ .mark .openBrace)
      (hl : l ≠ .keyword .thenWord) :
      Refuses (.conditional pos) ts l (Lexeme.missing (.keyword .thenWord) l)
  | separator {i : Item} {b : Enclosure} {l : Lexeme} (hends : ¬ Parser.endsList b.stop l = true)
      (hl : l ≠ .mark b.separator) :
      Refuses (.items i b false) [] l (Lexeme.missing (.mark b.separator) l)
  | stop {i : Item} {b : Enclosure} {first : Bool} :
      Refuses (.items i b first) [] .endOfInput (Lexeme.missing (.mark b.stop) .endOfInput)
  | stopNext {i : Item} {b : Enclosure} {t : Token} (ht : t.lexeme = .mark b.separator) :
      Refuses (.items i b false) [t] .endOfInput (Lexeme.missing (.mark b.stop) .endOfInput)

/-- After some tokens, a goal or one that it goes on with gives up at the lexeme `next`. -/
inductive Stops : Goal → List Token → Lexeme → Fault → Prop
  | here {g : Goal} {ts : List Token} {next : Lexeme} {fault : Fault}
      (h : Refuses g ts next fault) : Stops g ts next fault
  | inside {g g' : Goal} {ts us : List Token} {next : Lexeme} {fault : Fault}
      (h : Enters g ts (ahead us next) g') (rest : Stops g' us next fault) :
      Stops g (ts ++ us) next fault

/-- A fault of the parser tells what lexeme it found. -/
def Fault.Reports (fault : Fault) (l : Lexeme) : Prop :=
  fault.code = .parse ∧ fault.cause? = none ∧ fault.found = l.describe

theorem Stops.reports {g : Goal} {ts : List Token} {next : Lexeme} {fault : Fault}
    (h : Stops g ts next fault) : fault.Reports next := by
  induction h with
  | here h => cases h <;> exact ⟨rfl, rfl, rfl⟩
  | inside _ _ ih => exact ih

/-! ## Errors are where the parser stops -/

namespace Stream

/-- An error is the one at the end of the stream, or it is about the token after some others. -/
def Blames {α : Type} (s : Stream) (stops : List Token → Lexeme → Fault → Prop) :
    Except Error α → Prop
  | .ok _ => True
  | .error e => s.last = .error e ∨ ∃ ts rest t fault, s = prepend ts rest ∧ rest.peek = .ok t ∧
      stops ts t.lexeme fault ∧ e = fault.error t.pos

namespace Blames

variable {α β : Type} {s : Stream} {t : Token} {stops : List Token → Lexeme → Fault → Prop}

theorem refuse {fault : Fault} (ht : s.peek = .ok t) (h : stops [] t.lexeme fault) :
    s.Blames stops (.error (fault.error t.pos) : Except Error α) :=
  .inr ⟨[], s, t, fault, rfl, ht, h, rfl⟩

theorem cons {x : Except Error α} (h : s.Blames (fun ts => stops (t :: ts)) x) :
    (token t s).Blames stops x := by
  cases x with
  | ok y => trivial
  | error e =>
    rcases h with hlast | ⟨ts, rest, u, fault, rfl, hu, hstops, rfl⟩
    · exact .inl hlast
    · exact .inr ⟨t :: ts, rest, u, fault, rfl, hu, hstops, rfl⟩

theorem peek {f : Token → Except Error α} (h : ∀ t, s.peek = .ok t → s.Blames stops (f t)) :
    s.Blames stops (s.peek >>= f) := by
  cases s with
  | token head rest => exact h head rfl
  | finish pos => exact h _ rfl
  | broken e => exact .inl rfl

theorem expect {l : Lexeme} (hl : l ≠ .endOfInput) {f : Stream → Except Error α}
    (hmissing : ∀ found, s.Shows found → found ≠ l → stops [] found (l.missing found))
    (h : ∀ (t : Token) (rest : Stream), s = token t rest → t.lexeme = l →
      rest.Blames (fun ts => stops (t :: ts)) (f rest)) :
    s.Blames stops (s.expect l >>= f) := by
  unfold Stream.expect
  rw [bind_assoc]
  refine peek fun t ht => ?_
  by_cases heq : t.lexeme = l
  · obtain ⟨rest, rfl⟩ := eq_token ht (heq ▸ hl)
    rw [if_pos heq]
    exact cons (h t rest rfl heq)
  · rw [if_neg heq]
    exact refuse ht (hmissing _ ⟨t, ht, rfl⟩ heq)

/-- One function after another: the second one starts where the first one ended. -/
theorem bind {reads : List Token → Lexeme → α → Prop} {x : Except Error (α × Stream)}
    {f : α × Stream → Except Error β} (hx : s.Blames stops x) (hreads : s.Meets reads x)
    (hf : ∀ (r : α) (rest : Stream) (ts : List Token), s = prepend ts rest →
      (∀ next, rest.Shows next → reads ts next r) →
        rest.Blames (fun us => stops (ts ++ us)) (f (r, rest))) : s.Blames stops (x >>= f) := by
  cases x with
  | error e => exact hx
  | ok p =>
    obtain ⟨r, rest⟩ := p
    obtain ⟨ts, rfl, hts⟩ := hreads
    have hrest := hf r rest ts rfl hts
    show (prepend ts rest).Blames stops (f (r, rest))
    cases hy : f (r, rest) with
    | ok q => trivial
    | error e =>
      rw [hy] at hrest
      rcases hrest with hlast | ⟨us, rest', t, fault, rfl, ht, hstops, rfl⟩
      · exact .inl ((last_prepend ts rest).trans hlast)
      · exact .inr ⟨ts ++ us, rest', t, fault, (prepend_append ts us rest').symm, ht, hstops, rfl⟩

theorem imp {stops' : List Token → Lexeme → Fault → Prop} {x : Except Error α}
    (hx : s.Blames stops x) (h : ∀ ts next fault, s.Shows (ahead ts next) →
      stops ts next fault → stops' ts next fault) : s.Blames stops' x := by
  cases x with
  | ok y => trivial
  | error e =>
    rcases hx with hlast | ⟨ts, rest, t, fault, rfl, ht, hstops, rfl⟩
    · exact .inl hlast
    · have hshows : rest.Shows t.lexeme := ⟨t, ht, rfl⟩
      exact .inr ⟨ts, rest, t, fault, rfl, ht, h _ _ _ (hshows.prepend ts) hstops, rfl⟩

theorem enter {g g' : Goal} {x : Except Error α} (h : s.Blames (Stops g') x) (ts : List Token)
    (henters : ∀ l, s.Shows l → Enters g ts l g') : s.Blames (fun us => Stops g (ts ++ us)) x :=
  h.imp fun _ _ _ hshows hstops => .inside (henters _ hshows) hstops

end Blames

end Stream

theorem Lexeme.not_endsList {b : Enclosure} {l : Lexeme} (h : Parser.endsList b.stop l = true)
    (hl : l ≠ .mark b.stop) : l = .endOfInput := by
  rw [Parser.endsList, Bool.or_eq_true, beq_iff_eq, beq_iff_eq] at h
  exact h.resolve_right hl

theorem blames_name (s : Stream) : s.Blames (Stops (.item .name)) (Parser.name s) := by
  unfold Parser.name
  refine Blames.peek fun t ht => ?_
  by_cases hx : ∃ x, t.lexeme = .identifier x
  · obtain ⟨x, hx⟩ := hx
    simp only [hx]
    trivial
  · have hx : ∀ x, t.lexeme ≠ .identifier x := not_exists.1 hx
    split
    · exact absurd ‹_› (hx _)
    · exact Blames.refuse ht (.here (.name hx))

theorem blames_optionalName {stops : List Token → Lexeme → Fault → Prop} (s : Stream) :
    s.Blames stops (Parser.optionalName s) := by
  unfold Parser.optionalName
  refine Blames.peek fun t ht => ?_
  split <;> trivial

theorem blames_items {n : Nat} {i : Item}
    (hitem : ∀ s : Stream, 4 * s.length + 3 ≤ n → s.Blames (Stops (.item i)) (i.parse n s))
    (b : Enclosure) (k : Nat) (first : Bool) (s : Stream) (hn : 4 * s.length + 3 ≤ n)
    (hk : s.length < k) : s.Blames (Stops (.items i b first))
      (Parser.delimited (i.parse n) b.separator b.stop k first s) := by
  induction k generalizing first s with
  | zero => omega
  | succ k ih =>
    simp only [Parser.delimited]
    -- An item takes a token, so that fewer are left for those after it.
    have hrest : ∀ {ts : List Token} {s rest : Stream} {x : i.Result} {t : Token},
        s.length ≤ k → 4 * s.length + 3 ≤ n → s.peek = .ok t → s = prepend ts rest →
        (∀ next, rest.Shows next → Reads (.item i) ts next x) →
        rest.Blames (Stops (.items i b false))
          (Parser.delimited (i.parse n) b.separator b.stop k false rest) := by
      rintro ts s rest x t hk hn ht rfl hreads
      have hts : ts ≠ [] := by
        rintro rfl
        obtain ⟨u, us, hus, -⟩ := (hreads t.lexeme ⟨t, ht, rfl⟩).opened
        cases hus
      have hpos := List.length_pos_iff.2 hts
      rw [length_prepend] at hk hn
      exact ih false rest (by omega) (by omega)
    refine Blames.peek fun t ht => ?_
    split_ifs with hends hfirst
    · refine Blames.expect (by simp) ?_ fun u rest _ _ => trivial
      intro found hfound hne
      obtain rfl := hfound.eq ht
      rw [Lexeme.not_endsList hends hne]
      exact .here .stop
    · subst hfirst
      refine Blames.peek fun u hu => ?_
      cases ht.symm.trans hu
      rw [if_neg hends]
      refine Blames.bind ((hitem s hn).enter [] fun l hl => .itemFirst (hl.eq ht ▸ hends))
        (Goal.meets n n (.item i) s) fun x rest ts hs hreads => ?_
      refine Blames.bind ((hrest (by omega) hn ht hs hreads).enter ts fun l hl =>
        .afterFirst (hreads l hl)) (Goal.meets n k (.items i b false) rest) ?_
      exact fun _ _ _ _ _ => trivial
    · rw [Bool.not_eq_true] at hfirst
      subst hfirst
      refine Blames.expect (by simp) ?_ fun u rest hs hu => ?_
      · intro found hfound hne
        exact .here (.separator (hfound.eq ht ▸ hends) hne)
      · subst hs
        have hlen : rest.length + 1 < k + 1 := hk
        have hdepth : 4 * (rest.length + 1) + 3 ≤ n := hn
        refine Blames.peek fun v hv => ?_
        split_ifs with hends'
        · refine Blames.expect (by simp) ?_ fun _ _ _ _ => trivial
          intro found hfound hne
          obtain rfl := hfound.eq hv
          rw [Lexeme.not_endsList hends' hne]
          exact .here (.stopNext hu)
        · refine Blames.bind ((hitem rest (by omega)).enter [u] fun l hl =>
            .itemNext hu (hl.eq hv ▸ hends')) (Goal.meets n n (.item i) rest) ?_
          intro x rest' ts hs hreads
          refine Blames.bind ((hrest (by omega) (by omega) hv hs hreads).enter (u :: ts)
            fun l hl => .afterNext hu (hreads l hl)) (Goal.meets n k (.items i b false) rest') ?_
          exact fun _ _ _ _ _ => trivial

section

variable {n : Nat} (ih : ∀ (g : Goal) (s : Stream), 4 * s.length + g.height ≤ n → s.length < n →
  s.Blames (Stops g) (g.parse n n s))

include ih

theorem blames_expression (s : Stream) (hn : 4 * s.length + 3 ≤ n + 1) :
    s.Blames (Stops (.item .expression)) (Parser.expression (n + 1) s) := by
  simp only [Parser.expression]
  have hoperand := ih .operand s (by simp only [Goal.height]; omega) (by omega)
  refine Blames.bind (hoperand.enter [] fun l _ => .operand) (Goal.meets n n .operand s) ?_
  rintro a s ts rfl hfirst
  rw [length_prepend] at hn
  have hchain := ih (.chain a 0) s (by simp only [Goal.height]; omega) (by omega)
  refine Blames.bind (hchain.enter ts fun l hl => .chain (hfirst l hl))
    (Goal.meets n n (.chain a 0) s) ?_
  rintro e s us rfl hrest
  -- The last operand has taken all argument lists.
  obtain ⟨n, rfl⟩ : ∃ n', n = n' + 1 := ⟨n - 1, by omega⟩
  simp only [Parser.calls]
  refine Blames.peek fun t ht => ?_
  have hshows : s.Shows t.lexeme := ⟨t, ht, rfl⟩
  have hnext : t.lexeme ≠ .mark .openParen := by
    have hoperand := hfirst _ (hshows.prepend us)
    rcases (hrest _ hshows).settled with rfl | h
    · exact hoperand.settled
    · exact h
  rw [if_neg hnext]
  trivial

theorem blames_chain (left : Node) (level : Nat) (s : Stream) (hn : 4 * s.length + 1 ≤ n + 1) :
    s.Blames (Stops (.chain left level)) (Parser.chain (n + 1) left level s) := by
  simp only [Parser.chain]
  refine Blames.peek fun t ht => ?_
  cases hc : Parser.connective? t.lexeme with
  | none => trivial
  | some c =>
    simp only
    split_ifs with hlevel
    · trivial
    · have hlevel := Nat.lt_of_not_le hlevel
      have hne : t.lexeme ≠ .endOfInput := fun h => by
        rw [h] at hc
        cases hc
      obtain ⟨s, rfl⟩ := eq_token ht hne
      have hn : 4 * (s.length + 1) + 1 ≤ n + 1 := hn
      have hoperand := ih .operand s (by simp only [Goal.height]; omega) (by omega)
      refine Blames.cons (Blames.bind (hoperand.enter [t] fun l _ => .link hc hlevel)
        (Goal.meets n n .operand s) ?_)
      rintro a s ts rfl hfirst
      rw [length_prepend] at hn
      have hchain := ih (.chain a c.precedence) s (by simp only [Goal.height]; omega) (by omega)
      refine Blames.bind (hchain.enter (t :: ts) fun l hl => .linkRest hc hlevel (hfirst l hl))
        (Goal.meets n n (.chain a c.precedence) s) ?_
      rintro right s us rfl hrest
      rw [length_prepend] at hn
      have hmore := ih (.chain (Parser.combine c left right) level) s
        (by simp only [Goal.height]; omega) (by omega)
      have henters := hmore.enter (t :: (ts ++ us)) fun l hl =>
        .linkMore hc hlevel (hfirst _ (hl.prepend us)) (hrest l hl)
      simp only [List.cons_append, List.append_assoc] at henters
      exact henters

theorem blames_calls (callee : Node) (s : Stream) (hn : 4 * s.length + 1 ≤ n + 1) :
    s.Blames (Stops (.calls callee)) (Parser.calls (n + 1) callee s) := by
  simp only [Parser.calls]
  refine Blames.peek fun t ht => ?_
  split_ifs with hopen
  · obtain ⟨s, rfl⟩ := eq_token ht (by simp [hopen])
    have hn : 4 * (s.length + 1) + 1 ≤ n + 1 := hn
    have hlist := ih (.items .expression .parens true) s (by simp only [Goal.height]; omega)
      (by omega)
    refine Blames.cons (Blames.bind (hlist.enter [t] fun l _ => .arguments hopen)
      (Goal.meets n n (.items .expression .parens true) s) ?_)
    rintro args s ts rfl hargs
    rw [length_prepend] at hn
    have hmore := ih (.calls (.call callee.pos callee args)) s (by simp only [Goal.height]; omega)
      (by omega)
    exact hmore.enter (t :: ts) fun l hl => .callsMore hopen (hargs l hl)
  · trivial

theorem blames_operand (s : Stream) (hn : 4 * s.length + 2 ≤ n + 1) :
    s.Blames (Stops .operand) (Parser.operand (n + 1) s) := by
  simp only [Parser.operand]
  have hprimary := ih .primary s (by simp only [Goal.height]; omega) (by omega)
  refine Blames.bind (hprimary.enter [] fun l _ => .primary) (Goal.meets n n .primary s) ?_
  rintro a s ts rfl hfirst
  rw [length_prepend] at hn
  have hcalls := ih (.calls a) s (by simp only [Goal.height]; omega) (by omega)
  exact hcalls.enter ts fun l hl => .calls (hfirst l hl)

/-- What follows `lambda` or `let`: the opening parenthesis, a list, and a body. -/
theorem blames_abstraction {t : Token} {k : Keyword} {i : Item} (hk : Heads k i)
    (ht : t.lexeme = .keyword k) (s : Stream) (hn : 4 * (s.length + 1) + 1 ≤ n + 1)
    (make : Option Text → List i.Result → Node → Node) :
    s.Blames (fun ts => Stops .primary (t :: ts)) (Parser.optionalName s >>= fun x =>
      x.2.expect (.mark .openParen) >>= fun s =>
        (Goal.items i .parens true).parse n n s >>= fun y =>
          Parser.expression n y.2 >>= fun z => pure (make x.1 y.1 z.1, z.2)) := by
  refine Blames.bind (blames_optionalName s) (meets_optionalName s) ?_
  rintro f s names rfl hf
  rw [length_prepend] at hn
  refine Blames.expect (by simp) ?_ ?_
  · intro found hfound hne
    obtain ⟨hname, hnone⟩ := hf found hfound
    rw [List.append_nil]
    exact .here (.header hk ht hname hnone hne)
  · rintro u s rfl hu
    obtain ⟨hname, -⟩ := hf u.lexeme ⟨u, rfl, rfl⟩
    have hn : 4 * (names.length + (s.length + 1) + 1) + 1 ≤ n + 1 := hn
    have hlist := ih (.items i .parens true) s (by simp only [Goal.height]; omega) (by omega)
    have henters := hlist.enter (t :: (names ++ [u])) fun l _ => .header hk ht hname hu
    simp only [List.cons_append, List.append_assoc, List.nil_append] at henters
    refine Blames.bind henters (Goal.meets n n (.items i .parens true) s) ?_
    rintro xs s ts rfl hxs
    rw [length_prepend] at hn
    have hbody := ih (.item .expression) s (by simp only [Goal.height]; omega) (by omega)
    have henters := hbody.enter (t :: (names ++ u :: ts)) fun l hl =>
      .body hk ht hname hu (hxs l hl)
    simp only [List.cons_append, List.append_assoc] at henters
    exact Blames.bind henters (Goal.meets n n (.item .expression) s) fun _ _ _ _ _ => trivial

theorem blames_primary (s : Stream) (hn : 4 * s.length + 1 ≤ n + 1) :
    s.Blames (Stops .primary) (Parser.primary (n + 1) s) := by
  simp only [Parser.primary]
  refine Blames.peek fun t ht => ?_
  have hrefuse : ∀ {α : Type}, t.lexeme.startsPrimary = false →
      s.Blames (Stops .primary) (.error s.unexpected : Except Error α) := by
    intro α hstart
    have hunexpected : s.unexpected = (Fault.unexpectedToken t.lexeme.describe).error t.pos := by
      rw [Stream.unexpected, ht]
    rw [hunexpected]
    exact Blames.refuse ht (.here (.primary hstart))
  by_cases hne : t.lexeme = .endOfInput
  · simp only [hne]
    exact hrefuse (by rw [hne]; rfl)
  · obtain ⟨s, rfl⟩ := eq_token ht hne
    have hn : 4 * (s.length + 1) + 1 ≤ n + 1 := hn
    simp only [tail]
    split
    · rename_i hopen
      have hinside := ih (.item .expression) s (by simp only [Goal.height]; omega) (by omega)
      refine Blames.cons (Blames.bind (hinside.enter [t] fun l _ => .paren hopen)
        (Goal.meets n n (.item .expression) s) ?_)
      rintro e s ts rfl he
      refine Blames.expect (by simp) ?_ fun _ _ _ _ => trivial
      intro found hfound hne
      rw [List.append_nil]
      exact .here (.paren hopen (he found hfound) hne)
    · rename_i hopen
      have hlist := ih (.items .expression .braces true) s (by simp only [Goal.height]; omega)
        (by omega)
      exact Blames.cons (Blames.bind (hlist.enter [t] fun l _ => .block hopen)
        (Goal.meets n n (.items .expression .braces true) s) fun _ _ _ _ _ => trivial)
    · rename_i hif
      have hconditional := ih (.conditional t.pos) s (by simp only [Goal.height]; omega) (by omega)
      exact Blames.cons (hconditional.enter [t] fun l _ => .ifWord hif)
    · trivial
    · trivial
    · rename_i hlambda
      exact Blames.cons (blames_abstraction ih .lambdaWord hlambda s hn (.lambda t.pos))
    · rename_i hlet
      exact Blames.cons (blames_abstraction ih .letWord hlet s hn (Parser.binding t.pos))
    · trivial
    · trivial
    · trivial
    · refine hrefuse ?_
      unfold Lexeme.startsPrimary
      split <;> simp_all

theorem blames_conditional (pos : Pos) (s : Stream) (hn : 4 * s.length + 4 ≤ n + 1) :
    s.Blames (Stops (.conditional pos)) (Parser.conditional (n + 1) pos s) := by
  simp only [Parser.conditional]
  -- What follows the condition `c`, which was read from `ts`, and the tokens `us`.
  have hbranches : ∀ (c : Node) (ts us : List Token) (s : Stream), 4 * s.length + 3 ≤ n →
      (∀ l, s.Shows l → ReadsThen us l) →
      (∀ l, s.Shows l → Reads (.item .expression) ts (ahead us l) c) →
      s.Blames (fun vs => Stops (.conditional pos) (ts ++ (us ++ vs)))
        (Parser.expression n s >>= fun x => x.2.peek >>= fun t =>
          if t.lexeme = .keyword .elseWord then
            Parser.expression n x.2.tail >>= fun y => pure (Node.branch pos c x.1 y.1, y.2)
          else pure (.branch pos c x.1 .missing, x.2)) := by
    intro c ts us s hs hthen hc
    have htrue := (ih (.item .expression) s hs (by omega)).enter (g := .conditional pos)
      (ts ++ us) fun l hl => .whenTrue (hc l hl) (hthen l hl)
    simp only [List.append_assoc] at htrue
    refine Blames.bind htrue (Goal.meets n n (.item .expression) s) ?_
    rintro whenTrue s vs rfl hvs
    rw [length_prepend] at hs
    refine Blames.peek fun t ht => ?_
    split_ifs with helse
    · obtain ⟨s, rfl⟩ := eq_token ht (by simp [helse])
      have hshows : (Stream.token t s).Shows t.lexeme := ⟨t, rfl, rfl⟩
      have hs : 4 * (vs.length + (s.length + 1)) + 3 ≤ n := hs
      have hcondition := hc _ (hshows.prepend vs)
      rw [← ahead_append] at hcondition
      have hfalse := (ih (.item .expression) s (by simp only [Goal.height]; omega)
        (by omega)).enter (g := .conditional pos) (ts ++ (us ++ (vs ++ [t]))) fun l _ =>
          .whenFalse hcondition (hthen _ (hshows.prepend vs)) (hvs _ hshows) helse
      simp only [List.append_assoc, List.cons_append, List.nil_append] at hfalse
      exact Blames.cons (Blames.bind hfalse (Goal.meets n n (.item .expression) s)
        fun _ _ _ _ _ => trivial)
    · trivial
  have hcondition := ih (.item .expression) s (by simp only [Goal.height]; omega) (by omega)
  refine Blames.bind (hcondition.enter [] fun l _ => .condition)
    (Goal.meets n n (.item .expression) s) ?_
  rintro c s ts rfl hc
  rw [length_prepend] at hn
  refine Blames.peek fun t ht => ?_
  split_ifs with hbrace
  · refine hbranches c ts [] s (by omega) (fun l hl => ?_) hc
    rw [hl.eq ht, hbrace]
    exact .brace
  · refine Blames.expect (by simp) ?_ ?_
    · intro found hfound hne
      rw [List.append_nil]
      exact .here (.thenWord (hc found hfound) (hfound.eq ht ▸ hbrace) hne)
    · rintro u s rfl hu
      have hn : 4 * (ts.length + (s.length + 1)) + 4 ≤ n + 1 := hn
      exact hbranches c ts [u] s (by omega) (fun l _ => .word hu l) fun l _ => hc _ ⟨u, rfl, rfl⟩

theorem blames_definition (s : Stream) (hn : 4 * s.length + 1 ≤ n + 1) :
    s.Blames (Stops (.item .definition)) (Parser.definition (n + 1) s) := by
  simp only [Parser.definition]
  refine Blames.bind ((blames_name s).enter [] fun l _ => .name) (meets_name s) ?_
  rintro x s ts rfl hname
  rw [length_prepend] at hn
  refine Blames.peek fun t ht => ?_
  split_ifs with heq
  · obtain ⟨s, rfl⟩ := eq_token ht (by simp [heq])
    have hn : 4 * (ts.length + (s.length + 1)) + 1 ≤ n + 1 := hn
    cases hname t.lexeme ⟨t, rfl, rfl⟩
    have hvalue := ih (.item .expression) s (by simp only [Goal.height]; omega) (by omega)
    exact Blames.cons (Blames.bind (hvalue.enter [_, t] fun l _ => .definition heq)
      (Goal.meets n n (.item .expression) s) fun _ _ _ _ _ => trivial)
  · trivial

end

/-- A function of the parser that has depth enough fails where `Stops` says. -/
theorem Goal.blames (n k : Nat) (g : Goal) (s : Stream) (hn : 4 * s.length + g.height ≤ n)
    (hk : s.length < k) : s.Blames (Stops g) (g.parse n k s) := by
  induction n generalizing k g s with
  | zero =>
    cases g with
    | item i =>
      cases i with
      | name => exact blames_name s
      | _ => simp [Goal.height] at hn
    | _ => simp [Goal.height] at hn
  | succ n ih =>
    have ih : ∀ (g : Goal) (s : Stream), 4 * s.length + g.height ≤ n → s.length < n →
        s.Blames (Stops g) (g.parse n n s) := fun g s hn hk => ih n g s hn hk
    cases g with
    | item i =>
      cases i with
      | expression => exact blames_expression ih s hn
      | name => exact blames_name s
      | definition => exact blames_definition ih s hn
    | items i b first =>
      refine blames_items (fun s hs => ?_) b k first s hn hk
      cases i with
      | expression => exact blames_expression ih s hs
      | name => exact blames_name s
      | definition => exact blames_definition ih s (by omega)
    | chain left level => exact blames_chain ih left level s hn
    | calls callee => exact blames_calls ih callee s hn
    | operand => exact blames_operand ih s hn
    | primary => exact blames_primary ih s hn
    | conditional pos => exact blames_conditional ih pos s hn

end Mycel
