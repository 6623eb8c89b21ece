import Mycel.Token.Basic

/-!
# The grammar

The grammar of programs in extended Backus-Naur form: `Grammar.rule` has one phrase for each notion,
and `Derives` says which tokens a phrase stands for. The grammar is ambiguous. An `else` may belong
to either of two conditionals, and what follows the body of a lambda may or may not be a part of it.

`Phrase.Before` says that tokens start with some that a phrase stands for and go on in a given way.
It has an equation for each form of phrase, by which a rule can be taken apart from the left.
-/

namespace Mycel

namespace Grammar

/-- The notions that have a rule. -/
inductive Symbol where
  | program
  | expression
  | atom
  | primary
  | binding

/-- The right side of a rule, or a part of one. -/
inductive Phrase where
  /-- One token. -/
  | lexeme (p : Lexeme → Bool)
  | symbol (s : Symbol)
  | seq (first second : Phrase)
  | either (first second : Phrase)
  | optional (p : Phrase)
  | repeated (p : Phrase)
  /-- A phrase whose first token is given. -/
  | opening (l : Lexeme) (p : Phrase)

namespace Phrase

instance : Append Phrase := ⟨seq⟩

instance : OrOp Phrase := ⟨either⟩

def token (l : Lexeme) : Phrase := lexeme (· == l)

def mark (m : Mark) : Phrase := token (.mark m)

def keyword (k : Keyword) : Phrase := token (.keyword k)

def identifier : Phrase := lexeme fun | .identifier _ => true | _ => false

def number : Phrase := lexeme fun | .number _ _ => true | _ => false

def string : Phrase := lexeme fun | .string _ => true | _ => false

/-- A primary expression of one token. -/
def leaf : Phrase := keyword .trueWord ||| keyword .falseWord ||| identifier ||| number ||| string

/-- The operators that stand between two atoms. -/
def operators : List Text :=
  ["=", "||", "&&", "<", ">", "<=", ">=", "==", "!=", "+", "-", "*", "/", "%"].map bytes

def isOperator : Lexeme → Bool
  | .operator spelling => operators.contains spelling
  | _ => false

def operator : Phrase := lexeme isOperator

/-- Items with separators between them, and possibly one after the last item. -/
def list (separator : Mark) (item : Phrase) : Phrase :=
  item ++ (repeated (mark separator ++ item) ++ optional (mark separator))

/-- A list between two marks. It may be empty. -/
def enclosed (start separator stop : Mark) (item : Phrase) : Phrase :=
  mark start ++ (optional (list separator item) ++ mark stop)

def expression : Phrase := symbol .expression

def atom : Phrase := symbol .atom

/-- The arguments of a call. -/
def arguments : Phrase := enclosed .openParen .comma .closeParen expression

/-- The first branch of a conditional. Before a brace, `then` may be left out. -/
def thenBranch : Phrase :=
  keyword .thenWord ++ expression ||| opening (.mark .openBrace) expression

def elseBranch : Phrase := keyword .elseWord ++ expression

/-- What follows the word `if`. -/
def conditional : Phrase := expression ++ (thenBranch ++ optional elseBranch)

/-- A list of what is bound, possibly with a name before it, and the body. -/
def abstraction (bound : Phrase) : Phrase :=
  optional identifier ++ (enclosed .openParen .comma .closeParen bound ++ expression)

end Phrase

open Phrase in
/-- The rules of the grammar. -/
def rule : Symbol → Phrase
  | .program => optional (list .semicolon expression)
  | .expression => atom ++ repeated (operator ++ atom)
  | .atom => symbol .primary ++ repeated arguments
  | .primary =>
    mark .openParen ++ (expression ++ mark .closeParen) |||
      enclosed .openBrace .semicolon .closeBrace expression |||
      keyword .ifWord ++ conditional |||
      keyword .lambdaWord ++ abstraction identifier |||
      keyword .letWord ++ abstraction (symbol .binding) |||
      leaf
  | .binding => identifier ++ optional (token (.operator (bytes "=")) ++ expression)

/-- The tokens that a phrase stands for. -/
inductive Derives : Phrase → List Token → Prop
  | lexeme {p : Lexeme → Bool} {t : Token} (h : p t.lexeme = true) : Derives (.lexeme p) [t]
  | symbol {s : Symbol} {ts : List Token} (h : Derives (rule s) ts) : Derives (.symbol s) ts
  | seq {p q : Phrase} {ts us : List Token} (hp : Derives p ts) (hq : Derives q us) :
      Derives (p ++ q) (ts ++ us)
  | left {p q : Phrase} {ts : List Token} (h : Derives p ts) : Derives (p ||| q) ts
  | right {p q : Phrase} {ts : List Token} (h : Derives q ts) : Derives (p ||| q) ts
  | none {p : Phrase} : Derives (.optional p) []
  | some {p : Phrase} {ts : List Token} (h : Derives p ts) : Derives (.optional p) ts
  | stop {p : Phrase} : Derives (.repeated p) []
  | more {p : Phrase} {ts us : List Token} (hp : Derives p ts) (h : Derives (.repeated p) us) :
      Derives (.repeated p) (ts ++ us)
  | opening {l : Lexeme} {p : Phrase} {t : Token} {ts : List Token} (ht : t.lexeme = l)
      (h : Derives p (t :: ts)) : Derives (.opening l p) (t :: ts)

theorem derives_token {t : Token} {l : Lexeme} (h : t.lexeme = l) : Derives (.token l) [t] :=
  .lexeme (by simp [h])

theorem Derives.cons {l : Lexeme} {t : Token} {p : Phrase} {ts : List Token} (ht : t.lexeme = l)
    (h : Derives p ts) : Derives (.token l ++ p) (t :: ts) :=
  .seq (derives_token ht) h

theorem derives_symbol {s : Symbol} {ts : List Token} :
    Derives (.symbol s) ts ↔ Derives (rule s) ts := by
  constructor
  · intro h
    cases h with
    | symbol h => exact h
  · exact .symbol

theorem derives_seq {p q : Phrase} {ts : List Token} :
    Derives (p ++ q) ts ↔ ∃ us vs, ts = us ++ vs ∧ Derives p us ∧ Derives q vs := by
  constructor
  · intro h
    cases h with
    | @seq _ _ us vs hp hq => exact ⟨us, vs, rfl, hp, hq⟩
  · rintro ⟨us, vs, rfl, hp, hq⟩
    exact .seq hp hq

theorem Derives.list_last {separator : Mark} {p : Phrase} {ts : List Token} (h : Derives p ts) :
    Derives (.list separator p) ts := by
  rw [← List.append_nil ts]
  exact .seq h (.seq .stop .none)

theorem Derives.list_cons {separator : Mark} {p : Phrase} {t : Token} {ts us : List Token}
    (h : Derives p ts) (ht : t.lexeme = .mark separator)
    (hus : Derives (.optional (.list separator p)) us) :
    Derives (.list separator p) (ts ++ t :: us) := by
  cases hus with
  | none => exact .seq h (.seq .stop (.some (derives_token ht)))
  | some hus =>
    obtain ⟨vs, ws, rfl, hvs, hws⟩ := derives_seq.1 hus
    obtain ⟨ws, xs, rfl, hws, hxs⟩ := derives_seq.1 hws
    rw [← List.append_assoc vs, ← List.cons_append]
    exact .seq h (.seq (.more (.cons ht hvs) hws) hxs)

theorem derives_either {p q : Phrase} {ts : List Token} :
    Derives (p ||| q) ts ↔ Derives p ts ∨ Derives q ts := by
  constructor
  · intro h
    cases h with
    | left h => exact .inl h
    | right h => exact .inr h
  · rintro (h | h)
    · exact .left h
    · exact .right h

/-- Induction on the repetitions of a phrase. -/
@[elab_as_elim]
theorem Derives.repetitions {p : Phrase} {motive : ∀ ts, Derives (.repeated p) ts → Prop}
    (stop : motive [] .stop)
    (more : ∀ {us vs} (hp : Derives p us) (h : Derives (.repeated p) vs), motive vs h →
      motive (us ++ vs) (.more hp h)) {ts : List Token} (h : Derives (.repeated p) ts) :
    motive ts h := by
  have hmotive : ∀ {q us}, Derives q us → q = .repeated p → ∀ h, motive us h := by
    intro q us h hq
    induction h with
    | stop => exact fun _ => stop
    | more hp h _ ih =>
      cases hq
      exact fun _ => more hp h (ih rfl h)
    | _ => cases hq
  exact hmotive h rfl h

theorem Derives.append {p : Phrase} {ts us : List Token} (h : Derives (.repeated p) ts)
    (h' : Derives (.repeated p) us) : Derives (.repeated p) (ts ++ us) := by
  induction h using Derives.repetitions with
  | stop => exact h'
  | more hp _ ih =>
    rw [List.append_assoc]
    exact .more hp ih

/-! ## From the left -/

/-- The tokens start with some that `p` stands for, and those after them satisfy `k`. -/
def Phrase.Before (p : Phrase) (k : List Token → Prop) (ts : List Token) : Prop :=
  ∃ us vs, ts = us ++ vs ∧ Derives p us ∧ k vs

namespace Phrase

variable {p q : Phrase} {k k' : List Token → Prop} {ts : List Token}

theorem before_nil : p.Before (· = []) ts ↔ Derives p ts := by
  constructor
  · rintro ⟨us, vs, rfl, h, rfl⟩
    rwa [List.append_nil]
  · intro h
    exact ⟨ts, [], (List.append_nil ts).symm, h, rfl⟩

theorem Before.mono (h : p.Before k ts) (hk : ∀ vs, k vs → k' vs) : p.Before k' ts := by
  obtain ⟨us, vs, rfl, hp, hvs⟩ := h
  exact ⟨us, vs, rfl, hp, hk vs hvs⟩

theorem before_lexeme {f : Lexeme → Bool} :
    (lexeme f).Before k ts ↔ ∃ t us, ts = t :: us ∧ f t.lexeme = true ∧ k us := by
  constructor
  · rintro ⟨us, vs, rfl, h, hvs⟩
    cases h with
    | @lexeme _ t h => exact ⟨t, vs, rfl, h, hvs⟩
  · rintro ⟨t, us, rfl, h, hus⟩
    exact ⟨[t], us, rfl, .lexeme h, hus⟩

theorem before_lexeme_cons {f : Lexeme → Bool} {t : Token} :
    (lexeme f).Before k (t :: ts) ↔ f t.lexeme = true ∧ k ts := by
  rw [before_lexeme]
  constructor
  · rintro ⟨t, us, ⟨⟩, h, hus⟩
    exact ⟨h, hus⟩
  · rintro ⟨h, hts⟩
    exact ⟨t, ts, rfl, h, hts⟩

theorem before_token {l : Lexeme} :
    (token l).Before k ts ↔ ∃ t us, ts = t :: us ∧ t.lexeme = l ∧ k us := by
  simp only [token, before_lexeme, beq_iff_eq]

theorem before_symbol {s : Symbol} : (symbol s).Before k = (rule s).Before k := by
  funext ts
  simp only [Before, derives_symbol]

theorem before_seq : (p ++ q).Before k = p.Before (q.Before k) := by
  funext ts
  refine propext ⟨?_, ?_⟩
  · rintro ⟨us, vs, rfl, h, hvs⟩
    obtain ⟨us, us', rfl, hp, hq⟩ := derives_seq.1 h
    exact ⟨us, us' ++ vs, List.append_assoc .., hp, us', vs, rfl, hq, hvs⟩
  · rintro ⟨us, vs, rfl, hp, us', vs', rfl, hq, hvs⟩
    exact ⟨us ++ us', vs', (List.append_assoc ..).symm, .seq hp hq, hvs⟩

theorem before_token_seq {l : Lexeme} :
    (token l ++ p).Before k ts ↔ ∃ t us, ts = t :: us ∧ t.lexeme = l ∧ p.Before k us := by
  rw [before_seq, before_token]

theorem derives_token_seq {l : Lexeme} :
    Derives (token l ++ p) ts ↔ ∃ t us, ts = t :: us ∧ t.lexeme = l ∧ Derives p us := by
  simp only [← before_nil, before_token_seq]

theorem derives_enclosed {start separator stop : Mark} :
    Derives (enclosed start separator stop p) ts ↔ ∃ t us u, ts = t :: (us ++ [u]) ∧
      t.lexeme = .mark start ∧ Derives (optional (list separator p)) us ∧
      u.lexeme = .mark stop := by
  constructor
  · intro h
    obtain ⟨t, us, rfl, ht, hus⟩ := derives_token_seq.1 h
    obtain ⟨vs, ws, rfl, hvs, hws⟩ := derives_seq.1 hus
    obtain ⟨u, ws, rfl, hu, rfl⟩ := before_token.1 (before_nil.2 hws)
    exact ⟨t, vs, u, rfl, ht, hvs, hu⟩
  · rintro ⟨t, us, u, rfl, ht, hus, hu⟩
    exact .cons ht (.seq hus (derives_token hu))

theorem derives_assoc {r : Phrase} : Derives (p ++ q ++ r) ts ↔ Derives (p ++ (q ++ r)) ts := by
  simp only [← before_nil, before_seq]

theorem before_either : (p ||| q).Before k ts ↔ p.Before k ts ∨ q.Before k ts := by
  simp only [Before, derives_either]
  constructor
  · rintro ⟨us, vs, rfl, h | h, hvs⟩
    · exact .inl ⟨us, vs, rfl, h, hvs⟩
    · exact .inr ⟨us, vs, rfl, h, hvs⟩
  · rintro (⟨us, vs, rfl, h, hvs⟩ | ⟨us, vs, rfl, h, hvs⟩)
    · exact ⟨us, vs, rfl, .inl h, hvs⟩
    · exact ⟨us, vs, rfl, .inr h, hvs⟩

theorem before_optional : (optional p).Before k ts ↔ p.Before k ts ∨ k ts := by
  constructor
  · rintro ⟨us, vs, rfl, h, hvs⟩
    cases h with
    | none => exact .inr hvs
    | some h => exact .inl ⟨us, vs, rfl, h, hvs⟩
  · rintro (⟨us, vs, rfl, h, hvs⟩ | h)
    · exact ⟨us, vs, rfl, .some h, hvs⟩
    · exact ⟨[], ts, rfl, .none, h⟩

theorem before_repeated :
    (repeated p).Before k ts ↔ p.Before ((repeated p).Before k) ts ∨ k ts := by
  constructor
  · rintro ⟨us, vs, rfl, h, hvs⟩
    cases h with
    | stop => exact .inr hvs
    | @more _ us us' hp h =>
      exact .inl ⟨us, us' ++ vs, List.append_assoc .., hp, us', vs, rfl, h, hvs⟩
  · rintro (⟨us, vs, rfl, hp, us', vs', rfl, h, hvs⟩ | h)
    · exact ⟨us ++ us', vs', (List.append_assoc ..).symm, .more hp h, hvs⟩
    · exact ⟨[], ts, rfl, .stop, h⟩

theorem Before.of_opening {l : Lexeme} (h : (opening l p).Before k ts) :
    ∃ t us, ts = t :: us ∧ t.lexeme = l ∧ p.Before k ts := by
  obtain ⟨us, vs, rfl, h, hvs⟩ := h
  cases h with
  | @opening _ _ t us ht h => exact ⟨t, us ++ vs, rfl, ht, t :: us, vs, rfl, h, hvs⟩

end Phrase

end Grammar

end Mycel
