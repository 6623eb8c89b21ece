import Mathlib.Tactic.SplitIfs
import Mycel.Syntax.Parser

/-!
# What the parser reads

`Reads` says which tokens a function of the parser takes and what it makes of them, given the lexeme
that comes next. It has a rule for each way through the parser, and neither streams nor a bound on
the depth of calls. Whatever a function of the parser returns, it does what `Reads` says
(`Goal.meets`).
-/

namespace Mycel

namespace Stream

/-- Puts tokens in front of a stream. -/
def prepend : List Token → Stream → Stream
  | [], s => s
  | t :: ts, s => .token t (prepend ts s)

/-- The next lexeme of a stream can be read. -/
def Shows (s : Stream) (l : Lexeme) : Prop := ∃ t, s.peek = .ok t ∧ t.lexeme = l

theorem prepend_append (ts us : List Token) (s : Stream) :
    prepend (ts ++ us) s = prepend ts (prepend us s) := by
  induction ts with
  | nil => rfl
  | cons t ts ih => exact congrArg (token t) ih

theorem length_prepend (ts : List Token) (s : Stream) :
    (prepend ts s).length = ts.length + s.length := by
  induction ts with
  | nil => exact (Nat.zero_add _).symm
  | cons t ts ih =>
    rw [List.length_cons, Nat.add_right_comm]
    exact congrArg (· + 1) ih

theorem last_prepend (ts : List Token) (s : Stream) : (prepend ts s).last = s.last := by
  induction ts with
  | nil => rfl
  | cons t ts ih => exact ih

theorem Shows.eq {s : Stream} {t : Token} {l : Lexeme} (h : s.Shows l) (ht : s.peek = .ok t) :
    l = t.lexeme := by
  obtain ⟨u, hu, rfl⟩ := h
  cases ht.symm.trans hu
  rfl

end Stream

/-- The lexeme that comes first, where `next` comes after the tokens. -/
def ahead : List Token → Lexeme → Lexeme
  | [], next => next
  | t :: _, _ => t.lexeme

theorem ahead_append (ts us : List Token) (next : Lexeme) :
    ahead (ts ++ us) next = ahead ts (ahead us next) := by
  cases ts <;> rfl

theorem Stream.Shows.prepend {s : Stream} {next : Lexeme} (h : s.Shows next) (ts : List Token) :
    (Stream.prepend ts s).Shows (ahead ts next) := by
  cases ts with
  | nil => exact h
  | cons t ts => exact ⟨t, rfl, rfl⟩

theorem mem_of_connective {l : Lexeme} {c : Connective} (h : Parser.connective? l = some c) :
    c ∈ Connective.all := by
  cases l with
  | operator s =>
    rw [Parser.connective?, Connective.ofSpelling?] at h
    exact List.mem_of_find?_eq_some h
  | _ => cases h

/-! ## Goals -/

/-- What the lists of the language are lists of. -/
inductive Item where
  | expression
  | name
  | definition

def Item.Result : Item → Type
  | .expression => Node
  | .name => Text
  | .definition => Text × Node

/-- What the lists of the language are written in. -/
inductive Enclosure where
  | parens
  | braces

def Enclosure.separator : Enclosure → Mark
  | .parens => .comma
  | .braces => .semicolon

def Enclosure.stop : Enclosure → Mark
  | .parens => .closeParen
  | .braces => .closeBrace

/-- What can be parsed. -/
inductive Goal where
  | item (i : Item)
  /-- The rest of a list, with the mark that closes it. -/
  | items (i : Item) (b : Enclosure) (first : Bool)
  | chain (left : Node) (level : Nat)
  | calls (callee : Node)
  | operand
  | primary
  | conditional (pos : Pos)

def Goal.Result : Goal → Type
  | .item i => i.Result
  | .items i _ _ => List i.Result
  | _ => Node

/-- The node of a token that is a primary expression by itself. -/
def leaf? (t : Token) : Option Node :=
  match t.lexeme with
  | .keyword .trueWord => some (.bool t.pos true)
  | .keyword .falseWord => some (.bool t.pos false)
  | .identifier x => some (.identifier t.pos x)
  | .number _ x => some (.number t.pos x)
  | .string x => some (.string t.pos x)
  | _ => none

/-- The name after `lambda` or `let`, which may be left out. -/
inductive ReadsName : List Token → Option Text → Prop
  | none : ReadsName [] none
  | some (name : Text) (pos : Pos) : ReadsName [⟨.identifier name, pos⟩] (some name)

/-- What stands before the first branch of a conditional, which starts with a given lexeme. -/
inductive ReadsThen : List Token → Lexeme → Prop
  | word {t : Token} (ht : t.lexeme = .keyword .thenWord) (l : Lexeme) : ReadsThen [t] l
  | brace : ReadsThen [] (.mark .openBrace)

/-- The parser, with the goal `g`, takes some tokens before the lexeme `next` and makes a result of
them. -/
inductive Reads : (g : Goal) → List Token → Lexeme → g.Result → Prop
  | expression {ts us : List Token} {next : Lexeme} {a e : Node}
      (first : Reads .operand ts (ahead us next) a) (rest : Reads (.chain a 0) us next e) :
      Reads (.item .expression) (ts ++ us) next e
  | chainEnd {left : Node} {level : Nat} {next : Lexeme}
      (h : ∀ c, Parser.connective? next = some c → c.precedence ≤ level) :
      Reads (.chain left level) [] next left
  | chainMore {t : Token} {c : Connective} {left a right e : Node} {level : Nat}
      {ts us vs : List Token} {next : Lexeme} (hc : Parser.connective? t.lexeme = some c)
      (hlevel : level < c.precedence) (first : Reads .operand ts (ahead (us ++ vs) next) a)
      (rest : Reads (.chain a c.precedence) us (ahead vs next) right)
      (more : Reads (.chain (Parser.combine c left right) level) vs next e) :
      Reads (.chain left level) (t :: (ts ++ (us ++ vs))) next e
  | callsEnd {callee : Node} {next : Lexeme} (h : next ≠ .mark .openParen) :
      Reads (.calls callee) [] next callee
  | callsMore {t : Token} {callee e : Node} {args : List Node} {ts us : List Token} {next : Lexeme}
      (ht : t.lexeme = .mark .openParen)
      (list : Reads (.items .expression .parens true) ts (ahead us next) args)
      (more : Reads (.calls (.call callee.pos callee args)) us next e) :
      Reads (.calls callee) (t :: (ts ++ us)) next e
  | operand {ts us : List Token} {next : Lexeme} {a e : Node}
      (first : Reads .primary ts (ahead us next) a) (rest : Reads (.calls a) us next e) :
      Reads .operand (ts ++ us) next e
  | leaf {t : Token} {e : Node} {next : Lexeme} (h : leaf? t = some e) : Reads .primary [t] next e
  | paren {t u : Token} {ts : List Token} {e : Node} {next : Lexeme}
      (ht : t.lexeme = .mark .openParen) (hu : u.lexeme = .mark .closeParen)
      (inside : Reads (.item .expression) ts (.mark .closeParen) e) :
      Reads .primary (t :: (ts ++ [u])) next e
  | block {t : Token} {ts : List Token} {body : List Node} {next : Lexeme}
      (ht : t.lexeme = .mark .openBrace)
      (list : Reads (.items .expression .braces true) ts next body) :
      Reads .primary (t :: ts) next (Parser.block t.pos body)
  | ifWord {t : Token} {ts : List Token} {e : Node} {next : Lexeme}
      (ht : t.lexeme = .keyword .ifWord) (rest : Reads (.conditional t.pos) ts next e) :
      Reads .primary (t :: ts) next e
  | lambdaWord {t u : Token} {names ts us : List Token} {f : Option Text} {params : List Text}
      {body : Node} {next : Lexeme} (ht : t.lexeme = .keyword .lambdaWord) (hf : ReadsName names f)
      (hu : u.lexeme = .mark .openParen)
      (list : Reads (.items .name .parens true) ts (ahead us next) params)
      (rest : Reads (.item .expression) us next body) :
      Reads .primary (t :: (names ++ u :: (ts ++ us))) next (.lambda t.pos f params body)
  | letWord {t u : Token} {names ts us : List Token} {f : Option Text}
      {bindings : List (Text × Node)} {body : Node} {next : Lexeme}
      (ht : t.lexeme = .keyword .letWord) (hf : ReadsName names f)
      (hu : u.lexeme = .mark .openParen)
      (list : Reads (.items .definition .parens true) ts (ahead us next) bindings)
      (rest : Reads (.item .expression) us next body) :
      Reads .primary (t :: (names ++ u :: (ts ++ us))) next (Parser.binding t.pos f bindings body)
  | withoutElse {pos : Pos} {ts us vs : List Token} {condition whenTrue : Node} {next : Lexeme}
      (first : Reads (.item .expression) ts (ahead (us ++ vs) next) condition)
      (hthen : ReadsThen us (ahead vs next)) (branch : Reads (.item .expression) vs next whenTrue)
      (h : next ≠ .keyword .elseWord) :
      Reads (.conditional pos) (ts ++ (us ++ vs)) next (.branch pos condition whenTrue .missing)
  | withElse {pos : Pos} {t : Token} {ts us vs ws : List Token}
      {condition whenTrue whenFalse : Node} {next : Lexeme}
      (first : Reads (.item .expression) ts (ahead (us ++ (vs ++ t :: ws)) next) condition)
      (hthen : ReadsThen us (ahead vs t.lexeme))
      (branch : Reads (.item .expression) vs t.lexeme whenTrue)
      (ht : t.lexeme = .keyword .elseWord) (rest : Reads (.item .expression) ws next whenFalse) :
      Reads (.conditional pos) (ts ++ (us ++ (vs ++ t :: ws))) next
        (.branch pos condition whenTrue whenFalse)
  | name {x : Text} {pos : Pos} {next : Lexeme} :
      Reads (.item .name) [⟨.identifier x, pos⟩] next x
  | undefined {x : Text} {pos : Pos} {next : Lexeme} (h : next ≠ .operator (bytes "=")) :
      Reads (.item .definition) [⟨.identifier x, pos⟩] next (x, .missing)
  | defined {x : Text} {pos : Pos} {t : Token} {ts : List Token} {d : Node} {next : Lexeme}
      (ht : t.lexeme = .operator (bytes "=")) (rest : Reads (.item .expression) ts next d) :
      Reads (.item .definition) (⟨.identifier x, pos⟩ :: t :: ts) next (x, d)
  | close {i : Item} {b : Enclosure} {first : Bool} {t : Token} {next : Lexeme}
      (ht : t.lexeme = .mark b.stop) : Reads (.items i b first) [t] next []
  | trailing {i : Item} {b : Enclosure} {t u : Token} {next : Lexeme}
      (ht : t.lexeme = .mark b.separator) (hu : u.lexeme = .mark b.stop) :
      Reads (.items i b false) [t, u] next []
  | itemFirst {i : Item} {b : Enclosure} {ts us : List Token} {x : i.Result} {xs : List i.Result}
      {next : Lexeme} (first : Reads (.item i) ts (ahead us next) x)
      (rest : Reads (.items i b false) us next xs) :
      Reads (.items i b true) (ts ++ us) next (x :: xs)
  | itemNext {i : Item} {b : Enclosure} {t : Token} {ts us : List Token} {x : i.Result}
      {xs : List i.Result} {next : Lexeme} (ht : t.lexeme = .mark b.separator)
      (first : Reads (.item i) ts (ahead us next) x) (rest : Reads (.items i b false) us next xs) :
      Reads (.items i b false) (t :: (ts ++ us)) next (x :: xs)

def Item.parse (n : Nat) : (i : Item) → Stream → Except Error (i.Result × Stream)
  | .expression => Parser.expression n
  | .name => Parser.name
  | .definition => Parser.definition n

/-- The function of the parser for a goal. The second bound is that of lists. -/
def Goal.parse (n k : Nat) : (g : Goal) → Stream → Except Error (g.Result × Stream)
  | .item i => i.parse n
  | .items i b first => Parser.delimited (i.parse n) b.separator b.stop k first
  | .chain left level => Parser.chain n left level
  | .calls callee => Parser.calls n callee
  | .operand => Parser.operand n
  | .primary => Parser.primary n
  | .conditional pos => Parser.conditional n pos

/-! ## What the functions do -/

namespace Stream

variable {α β : Type} {s : Stream} {t : Token}

/-- A result is made of tokens that were taken off the stream; an error is one of parsing, or the
one at the end of the stream. -/
def Meets (s : Stream) (reads : List Token → Lexeme → α → Prop) :
    Except Error (α × Stream) → Prop
  | .ok (r, rest) => ∃ ts, s = prepend ts rest ∧ ∀ next, rest.Shows next → reads ts next r
  | .error e => e.code? = some .parse ∨ s.last = .error e

theorem eq_token (ht : s.peek = .ok t) (h : t.lexeme ≠ .endOfInput) :
    ∃ rest, s = .token t rest := by
  cases s with
  | token head rest =>
    cases ht
    exact ⟨rest, rfl⟩
  | finish pos =>
    cases ht
    exact absurd rfl h
  | broken e => cases ht

namespace Meets

variable {reads : List Token → Lexeme → α → Prop} {reads' : List Token → Lexeme → β → Prop}

theorem done {r : α} (h : ∀ next, s.Shows next → reads [] next r) : s.Meets reads (.ok (r, s)) :=
  ⟨[], rfl, h⟩

theorem fail {e : Error} (h : e.code? = some .parse) : s.Meets reads (.error e) := .inl h

theorem unexpected : s.Meets reads (.error s.unexpected) := by
  cases s with
  | token head rest => exact .inl rfl
  | finish pos => exact .inl rfl
  | broken e => exact .inr rfl

theorem cons {x : Except Error (α × Stream)}
    (h : s.Meets (fun ts next r => reads (t :: ts) next r) x) : (token t s).Meets reads x := by
  cases x with
  | ok y =>
    obtain ⟨ts, rfl, hts⟩ := h
    exact ⟨t :: ts, rfl, hts⟩
  | error e => exact h

theorem peek {f : Token → Except Error (α × Stream)}
    (h : ∀ t, s.peek = .ok t → s.Meets reads (f t)) : s.Meets reads (s.peek >>= f) := by
  cases s with
  | token head rest => exact h head rfl
  | finish pos => exact h _ rfl
  | broken e => exact .inr rfl

theorem expect {l : Lexeme} (hl : l ≠ .endOfInput) {f : Stream → Except Error (α × Stream)}
    (h : ∀ (t : Token) (rest : Stream), t.lexeme = l →
      rest.Meets (fun ts next r => reads (t :: ts) next r) (f rest)) :
    s.Meets reads (s.expect l >>= f) := by
  unfold Stream.expect
  rw [bind_assoc]
  refine peek fun t ht => ?_
  by_cases heq : t.lexeme = l
  · obtain ⟨rest, rfl⟩ := eq_token ht (heq ▸ hl)
    rw [if_pos heq]
    exact cons (h t rest heq)
  · rw [if_neg heq]
    exact fail rfl

theorem showing {x : Except Error (α × Stream)} (ht : s.peek = .ok t)
    (h : s.Meets (fun ts next r => ahead ts next = t.lexeme → reads ts next r) x) :
    s.Meets reads x := by
  cases x with
  | error e => exact h
  | ok p =>
    obtain ⟨ts, rfl, hts⟩ := h
    exact ⟨ts, rfl, fun next hnext => hts next hnext ((hnext.prepend ts).eq ht)⟩

theorem imp {reads' : List Token → Lexeme → α → Prop} {x : Except Error (α × Stream)}
    (hx : s.Meets reads x) (h : ∀ ts next r, reads ts next r → reads' ts next r) :
    s.Meets reads' x := by
  cases x with
  | error e => exact hx
  | ok p =>
    obtain ⟨ts, hs, hts⟩ := hx
    exact ⟨ts, hs, fun next hnext => h ts next _ (hts next hnext)⟩

/-- One function after another. The second one also has to say what comes next for the first. -/
theorem bind {x : Except Error (α × Stream)} {f : α × Stream → Except Error (β × Stream)}
    (hx : s.Meets reads x)
    (hf : ∀ (r : α) (rest : Stream) (ts : List Token),
      rest.Meets (fun us next y => reads ts (ahead us next) r → reads' (ts ++ us) next y)
        (f (r, rest))) : s.Meets reads' (x >>= f) := by
  cases x with
  | error e => exact hx
  | ok p =>
    obtain ⟨r, rest⟩ := p
    obtain ⟨ts, rfl, hts⟩ := hx
    have hrest := hf r rest ts
    show (prepend ts rest).Meets reads' (f (r, rest))
    cases hy : f (r, rest) with
    | error e =>
      rw [hy] at hrest
      refine hrest.imp_right fun hlast => ?_
      rw [last_prepend]
      exact hlast
    | ok q =>
      rw [hy] at hrest
      obtain ⟨us, rfl, hus⟩ := hrest
      refine ⟨ts ++ us, (prepend_append ts us _).symm, fun next hnext => ?_⟩
      exact hus next hnext (hts _ (hnext.prepend us))

end Meets

end Stream

/-- Where an operand ends there is no argument list, and a chain ends with an operand. -/
def Goal.Settled (ts : List Token) (next : Lexeme) : Goal → Prop
  | .operand | .calls _ => next ≠ .mark .openParen
  | .chain _ _ => ts = [] ∨ next ≠ .mark .openParen
  | _ => True

theorem Reads.settled {g : Goal} {ts : List Token} {next : Lexeme} {r : g.Result}
    (h : Reads g ts next r) : g.Settled ts next := by
  induction h with
  | chainEnd h => exact .inl rfl
  | @chainMore t c left a right e level ts us vs next hc hlevel _ _ _ ihfirst ihrest ihmore =>
    rcases ihmore with rfl | hnext
    · rcases ihrest with rfl | hnext
      · exact .inr ihfirst
      · exact .inr hnext
    · exact .inr hnext
  | callsEnd h => exact h
  | callsMore _ _ _ _ ih => exact ih
  | operand _ _ _ ih => exact ih
  | _ => trivial

/-- A lexeme that may come first in an item of a list. -/
def Lexeme.Opens (l : Lexeme) : Prop :=
  l ≠ .endOfInput ∧ ∀ m, l = .mark m → m = .openParen ∨ m = .openBrace

def Goal.Opened (ts : List Token) : Goal → Prop
  | .item _ | .operand | .primary => ∃ t us, ts = t :: us ∧ t.lexeme.Opens
  | _ => True

theorem Reads.opened {g : Goal} {ts : List Token} {next : Lexeme} {r : g.Result}
    (h : Reads g ts next r) : g.Opened ts := by
  induction h with
  | expression _ _ ih | operand _ _ ih =>
    obtain ⟨t, ts, rfl, ht⟩ := ih
    exact ⟨t, _, rfl, ht⟩
  | @leaf t e next h =>
    refine ⟨t, [], rfl, ?_⟩
    unfold leaf? at h
    split at h <;> simp_all [Lexeme.Opens]
  | paren ht | block ht | ifWord ht | lambdaWord ht | letWord ht =>
    exact ⟨_, _, rfl, by simp [Lexeme.Opens, ht]⟩
  | name | undefined | defined => exact ⟨_, _, rfl, by simp [Lexeme.Opens]⟩
  | _ => trivial

open Mycel.Stream

theorem meets_name (s : Stream) : s.Meets (Reads (.item .name)) (Parser.name s) := by
  unfold Parser.name
  refine Meets.peek fun t ht => ?_
  obtain ⟨l, pos⟩ := t
  cases l with
  | identifier x =>
    obtain ⟨rest, rfl⟩ := eq_token ht (by simp)
    exact Meets.cons (Meets.done fun next _ => .name)
  | _ => exact Meets.fail rfl

theorem meets_optionalName (s : Stream) :
    s.Meets (fun ts next f => ReadsName ts f ∧ (ts = [] → ∀ x, next ≠ .identifier x))
      (Parser.optionalName s) := by
  unfold Parser.optionalName
  refine Meets.peek fun t ht => ?_
  obtain ⟨l, pos⟩ := t
  cases l with
  | identifier x =>
    obtain ⟨rest, rfl⟩ := eq_token ht (by simp)
    exact Meets.cons (Meets.done fun next _ => ⟨.some x pos, nofun⟩)
  | _ =>
    refine Meets.done fun next hnext => ⟨.none, fun _ x => ?_⟩
    rw [hnext.eq ht]
    simp

theorem meets_items {n : Nat} {i : Item}
    (hitem : ∀ s : Stream, s.Meets (Reads (.item i)) (i.parse n s)) (b : Enclosure) (k : Nat)
    (first : Bool) (s : Stream) :
    s.Meets (Reads (.items i b first))
      (Parser.delimited (i.parse n) b.separator b.stop k first s) := by
  induction k generalizing first s with
  | zero => exact Meets.unexpected
  | succ k ih =>
    simp only [Parser.delimited]
    refine Meets.peek fun t ht => ?_
    split_ifs with hends hfirst
    · refine Meets.expect (by simp) fun u rest hu => ?_
      exact Meets.done fun next _ => .close hu
    · subst hfirst
      refine Meets.peek fun u hu => ?_
      cases ht.symm.trans hu
      rw [if_neg hends]
      refine Meets.bind (hitem s) fun x s ts => ?_
      refine Meets.bind (ih false s) fun xs s us => ?_
      refine Meets.done fun next _ hrest hitem => ?_
      rw [List.append_nil] at hitem ⊢
      exact .itemFirst hitem hrest
    · rw [Bool.not_eq_true] at hfirst
      subst hfirst
      refine Meets.expect (by simp) fun u rest hu => ?_
      refine Meets.peek fun v _ => ?_
      split_ifs
      · refine Meets.expect (by simp) fun w rest hw => ?_
        exact Meets.done fun next _ => .trailing hu hw
      · refine Meets.bind (hitem _) fun x s ts => ?_
        refine Meets.bind (ih false s) fun xs s us => ?_
        refine Meets.done fun next _ hrest hitem => ?_
        rw [List.append_nil] at hitem ⊢
        exact .itemNext hu hitem hrest

section

variable {n : Nat} (ih : ∀ (g : Goal) (s : Stream), s.Meets (Reads g) (g.parse n n s))

include ih

theorem meets_expression (s : Stream) :
    s.Meets (Reads (.item .expression)) (Parser.expression (n + 1) s) := by
  simp only [Parser.expression]
  refine Meets.bind (ih .operand s) fun a s ts => ?_
  refine Meets.bind (ih (.chain a 0) s) fun e s us => ?_
  refine Meets.imp (ih (.calls e) s) fun vs next e' hcalls hchain hfirst => ?_
  -- No argument list is left: the last operand has taken them all.
  have hnext : ahead vs next ≠ .mark .openParen := by
    rcases hchain.settled with rfl | h
    · exact hfirst.settled
    · exact h
  cases hcalls with
  | callsEnd =>
    rw [List.append_nil] at hfirst ⊢
    exact .expression hfirst hchain
  | callsMore ht => exact absurd ht hnext

theorem meets_chain (left : Node) (level : Nat) (s : Stream) :
    s.Meets (Reads (.chain left level)) (Parser.chain (n + 1) left level s) := by
  simp only [Parser.chain]
  refine Meets.peek fun t ht => ?_
  cases hc : Parser.connective? t.lexeme with
  | none =>
    refine Meets.done fun next hnext => .chainEnd fun c hc' => ?_
    rw [hnext.eq ht, hc] at hc'
    cases hc'
  | some c =>
    simp only
    split_ifs with hlevel
    · refine Meets.done fun next hnext => .chainEnd fun c' hc' => ?_
      rw [hnext.eq ht, hc] at hc'
      cases hc'
      exact hlevel
    · have hne : t.lexeme ≠ .endOfInput := fun h => by
        rw [h] at hc
        cases hc
      obtain ⟨rest, rfl⟩ := eq_token ht hne
      refine Meets.cons (Meets.bind (ih .operand rest) fun a s ts => ?_)
      refine Meets.bind (ih (.chain a c.precedence) s) fun right s us => ?_
      refine Meets.imp (ih (.chain (Parser.combine c left right) level) s) ?_
      intro vs next e hmore hrest hfirst
      exact .chainMore hc (Nat.lt_of_not_le hlevel) hfirst hrest hmore

theorem meets_calls (callee : Node) (s : Stream) :
    s.Meets (Reads (.calls callee)) (Parser.calls (n + 1) callee s) := by
  simp only [Parser.calls]
  refine Meets.peek fun t ht => ?_
  split_ifs with hopen
  · obtain ⟨rest, rfl⟩ := eq_token ht (by simp [hopen])
    refine Meets.cons (Meets.bind (ih (.items .expression .parens true) rest) ?_)
    intro args s ts
    refine Meets.imp (ih (.calls (.call callee.pos callee args)) s) ?_
    intro us next e hmore hlist
    exact .callsMore hopen hlist hmore
  · exact Meets.done fun next hnext => .callsEnd (hnext.eq ht ▸ hopen)

theorem meets_operand (s : Stream) : s.Meets (Reads .operand) (Parser.operand (n + 1) s) := by
  simp only [Parser.operand]
  refine Meets.bind (ih .primary s) fun a s ts => ?_
  exact Meets.imp (ih (.calls a) s) fun us next e hrest hfirst => .operand hfirst hrest

theorem meets_primary (s : Stream) : s.Meets (Reads .primary) (Parser.primary (n + 1) s) := by
  simp only [Parser.primary]
  refine Meets.peek fun t ht => ?_
  by_cases hne : t.lexeme = .endOfInput
  · simp only [hne]
    exact Meets.unexpected
  · obtain ⟨rest, rfl⟩ := eq_token ht hne
    simp only [tail]
    split
    · rename_i hopen
      refine Meets.cons (Meets.bind (ih (.item .expression) rest) fun e s ts => ?_)
      refine Meets.expect (by simp) fun u s hu => ?_
      refine Meets.done fun next _ hinside => ?_
      exact .paren hopen hu (hu ▸ hinside)
    · rename_i hopen
      refine Meets.cons (Meets.bind (ih (.items .expression .braces true) rest) ?_)
      intro body s ts
      refine Meets.done fun next _ hlist => ?_
      rw [List.append_nil]
      exact .block hopen hlist
    · rename_i hif
      exact Meets.cons (Meets.imp (ih (.conditional t.pos) rest) fun ts next e h => .ifWord hif h)
    · rename_i htrue
      exact Meets.cons (Meets.done fun next _ => .leaf (by simp [leaf?, htrue]))
    · rename_i hfalse
      exact Meets.cons (Meets.done fun next _ => .leaf (by simp [leaf?, hfalse]))
    · rename_i hlambda
      refine Meets.cons (Meets.bind (meets_optionalName rest) fun f s names => ?_)
      refine Meets.expect (by simp) fun u s hu => ?_
      refine Meets.bind (ih (.items .name .parens true) s) fun params s ts => ?_
      refine Meets.bind (ih (.item .expression) s) fun body s us => ?_
      refine Meets.done fun next _ hbody hlist hname => ?_
      rw [List.append_nil] at hlist ⊢
      exact .lambdaWord hlambda hname.1 hu hlist hbody
    · rename_i hlet
      refine Meets.cons (Meets.bind (meets_optionalName rest) fun f s names => ?_)
      refine Meets.expect (by simp) fun u s hu => ?_
      refine Meets.bind (ih (.items .definition .parens true) s) fun bindings s ts => ?_
      refine Meets.bind (ih (.item .expression) s) fun body s us => ?_
      refine Meets.done fun next _ hbody hlist hname => ?_
      rw [List.append_nil] at hlist ⊢
      exact .letWord hlet hname.1 hu hlist hbody
    · rename_i x hx
      exact Meets.cons (Meets.done fun next _ => .leaf (by simp [leaf?, hx]))
    · rename_i x hx
      exact Meets.cons (Meets.done fun next _ => .leaf (by simp [leaf?, hx]))
    · rename_i x hx
      exact Meets.cons (Meets.done fun next _ => .leaf (by simp [leaf?, hx]))
    · exact Meets.unexpected

theorem meets_conditional (pos : Pos) (s : Stream) :
    s.Meets (Reads (.conditional pos)) (Parser.conditional (n + 1) pos s) := by
  simp only [Parser.conditional]
  -- What follows the condition `c`, which was read from `ts`, and the tokens `us`.
  have hbranches : ∀ (c : Node) (ts us : List Token) (s : Stream),
      s.Meets (fun vs next e => ReadsThen us (ahead vs next) →
          Reads (.item .expression) ts (ahead (us ++ vs) next) c →
            Reads (.conditional pos) (ts ++ (us ++ vs)) next e)
        (Parser.expression n s >>= fun x => x.2.peek >>= fun t =>
          if t.lexeme = .keyword .elseWord then
            Parser.expression n x.2.tail >>= fun y => pure (.branch pos c x.1 y.1, y.2)
          else pure (.branch pos c x.1 .missing, x.2)) := by
    intro c ts us s
    refine Meets.bind (ih (.item .expression) s) fun whenTrue s vs => ?_
    refine Meets.peek fun t ht => ?_
    split_ifs with helse
    · obtain ⟨rest, rfl⟩ := eq_token ht (by simp [helse])
      refine Meets.cons (Meets.bind (ih (.item .expression) rest) fun whenFalse s ws => ?_)
      refine Meets.done fun next _ hfalse htrue hthen hc => ?_
      rw [List.append_nil] at hthen hc ⊢
      rw [ahead_append] at hthen
      exact .withElse hc hthen htrue helse hfalse
    · refine Meets.done fun next hnext htrue hthen hc => ?_
      rw [List.append_nil] at hthen hc ⊢
      exact .withoutElse hc hthen htrue (hnext.eq ht ▸ helse)
  refine Meets.bind (ih (.item .expression) s) fun c s ts => ?_
  refine Meets.peek fun t ht => ?_
  split_ifs with hbrace
  · refine Meets.showing ht (Meets.imp (hbranches c ts [] s) fun vs next e h hfirst => ?_)
    refine h ?_
    rw [hfirst, hbrace]
    exact .brace
  · refine Meets.expect (by simp) fun u rest hu => ?_
    exact Meets.imp (hbranches c ts [u] rest) fun vs next e h => h (.word hu _)

theorem meets_definition (s : Stream) :
    s.Meets (Reads (.item .definition)) (Parser.definition (n + 1) s) := by
  simp only [Parser.definition]
  refine Meets.bind (meets_name s) fun x s ts => ?_
  refine Meets.peek fun t ht => ?_
  split_ifs with heq
  · obtain ⟨rest, rfl⟩ := eq_token ht (by simp [heq])
    refine Meets.cons (Meets.bind (ih (.item .expression) rest) fun d s us => ?_)
    refine Meets.done fun next _ hd hname => ?_
    rw [List.append_nil]
    cases hname
    exact .defined heq hd
  · refine Meets.done fun next hnext hname => ?_
    cases hname
    exact .undefined (hnext.eq ht ▸ heq)

end

/-- Every function of the parser does what `Reads` says. -/
theorem Goal.meets (n k : Nat) (g : Goal) (s : Stream) : s.Meets (Reads g) (g.parse n k s) := by
  induction n generalizing k g s with
  | zero =>
    have hitem : ∀ i (s : Stream), s.Meets (Reads (.item i)) (Item.parse 0 i s) := by
      intro i s
      cases i with
      | name => exact meets_name s
      | _ => exact Meets.unexpected
    cases g with
    | item i => exact hitem i s
    | items i b first => exact meets_items (hitem i) b k first s
    | _ => exact Meets.unexpected
  | succ n ih =>
    have ih : ∀ (g : Goal) (s : Stream), s.Meets (Reads g) (g.parse n n s) := ih n
    have hitem : ∀ i (s : Stream), s.Meets (Reads (.item i)) (Item.parse (n + 1) i s) := by
      intro i s
      cases i with
      | expression => exact meets_expression ih s
      | name => exact meets_name s
      | definition => exact meets_definition ih s
    cases g with
    | item i => exact hitem i s
    | items i b first => exact meets_items (hitem i) b k first s
    | chain left level => exact meets_chain ih left level s
    | calls callee => exact meets_calls ih callee s
    | operand => exact meets_operand ih s
    | primary => exact meets_primary ih s
    | conditional pos => exact meets_conditional ih pos s

end Mycel
