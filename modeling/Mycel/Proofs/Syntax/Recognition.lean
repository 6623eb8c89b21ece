import Mycel.Proofs.Syntax.Acceptance
import Mycel.Proofs.Syntax.Grammar

/-!
# The parser recognizes the grammar

A source has a program exactly if it can be scanned to its end and the grammar derives its tokens.

The parser takes as much as it can, so what it takes for an expression may be longer than the
expression of a derivation: an argument list, an operator with its operand or an `else` with its
branch may belong to what follows there. `Absorbs` says of what follows that it still does so after
it has lost such a part. All that follows an expression in the grammar is like that, and so the
parser never gets stuck.
-/

namespace Mycel

open Grammar Grammar.Phrase

/-! ## What the parser reads is derivable -/

def Item.phrase : Item → Phrase
  | .expression => .expression
  | .name => .identifier
  | .definition => .symbol .binding

/-- The phrase of a goal. -/
def Goal.phrase : Goal → Phrase
  | .item i => i.phrase
  | .items i b true => .optional (.list b.separator i.phrase) ++ .mark b.stop
  | .items i b false =>
    .repeated (.mark b.separator ++ i.phrase) ++ (.optional (.mark b.separator) ++ .mark b.stop)
  | .chain _ _ => .repeated (.operator ++ .atom)
  | .calls _ => .repeated .arguments
  | .operand => .atom
  | .primary => .symbol .primary
  | .conditional _ => .conditional

theorem operators_eq : operators = Connective.all.map Connective.spelling := by decide

/-- The operators of the grammar are the connectives of the parser. -/
theorem isOperator_iff {l : Lexeme} :
    isOperator l = true ↔ ∃ c, Parser.connective? l = some c := by
  cases l with
  | operator s =>
    simp only [isOperator, operators_eq, Parser.connective?, Connective.ofSpelling?,
      List.contains_iff_mem, ← Option.isSome_iff_exists, List.find?_isSome, List.mem_map,
      beq_iff_eq]
  | _ => simp [isOperator, Parser.connective?]

theorem before_leaf {k : List Token → Prop} {ts : List Token} :
    Phrase.leaf.Before k ts ↔ ∃ t us e, ts = t :: us ∧ leaf? t = some e ∧ k us := by
  cases ts with
  | nil => simp [Phrase.leaf, before_either, keyword, before_token, identifier, number, string,
      before_lexeme]
  | cons t us =>
    have hleaf : Phrase.leaf.Before k (t :: us) ↔ (∃ e, leaf? t = some e) ∧ k us := by
      simp only [Phrase.leaf, before_either, keyword, token, identifier, number, string,
        before_lexeme_cons]
      obtain ⟨l, pos⟩ := t
      cases l with
      | keyword w => cases w <;> simp [leaf?]
      | _ => simp [leaf?]
    rw [hleaf]
    constructor
    · rintro ⟨⟨e, he⟩, hus⟩
      exact ⟨t, us, e, rfl, he, hus⟩
    · rintro ⟨t, us, e, ⟨⟩, he, hus⟩
      exact ⟨⟨e, he⟩, hus⟩

theorem ReadsName.derives {names : List Token} {f : Option Text} (h : ReadsName names f) :
    Derives (.optional .identifier) names := by
  cases h with
  | none => exact .none
  | some name pos => exact .some (.lexeme rfl)

theorem ReadsThen.derives {us vs : List Token} {next : Lexeme} {e : Node}
    (h : ReadsThen us (ahead vs next)) (hbranch : Reads (.item .expression) vs next e)
    (hvs : Derives .expression vs) :
    Derives .thenBranch (us ++ vs) := by
  obtain ⟨t, vs, rfl, _⟩ := hbranch.opened
  generalize hl : ahead (t :: vs) next = l at h
  cases h with
  | word hu => exact .left (.cons hu hvs)
  | brace => exact .right (.opening hl hvs)

theorem Reads.derives {g : Goal} {ts : List Token} {next : Lexeme} {r : g.Result}
    (h : Reads g ts next r) : Derives g.phrase ts := by
  induction h with
  | expression _ _ ih ih' => exact .symbol (.seq ih ih')
  | chainEnd h => exact .stop
  | chainMore hc _ _ _ _ ihfirst ihrest ihmore =>
    exact .more (.seq (.lexeme (isOperator_iff.2 ⟨_, hc⟩)) ihfirst) (ihrest.append ihmore)
  | callsEnd h => exact .stop
  | callsMore ht _ _ ih ih' => exact .more (.cons ht ih) ih'
  | operand _ _ ih ih' => exact .symbol (.seq ih ih')
  | @leaf t e next h =>
    exact .symbol (.right (before_nil.1 (before_leaf.2 ⟨t, [], e, rfl, h, rfl⟩)))
  | paren ht hu _ ih =>
    refine .symbol ?_
    simp only [rule, derives_either, or_assoc]
    exact .inl (.cons ht (.seq ih (derives_token hu)))
  | block ht _ ih =>
    refine .symbol ?_
    simp only [rule, derives_either, or_assoc]
    exact .inr (.inl (.cons ht ih))
  | ifWord ht _ ih =>
    refine .symbol ?_
    simp only [rule, derives_either, or_assoc]
    exact .inr (.inr (.inl (.cons ht ih)))
  | lambdaWord ht hf hu _ _ ih ih' =>
    refine .symbol ?_
    simp only [rule, derives_either, or_assoc]
    have habstraction := Derives.seq hf.derives (.seq (.cons hu ih) ih')
    exact .inr (.inr (.inr (.inl (.cons ht habstraction))))
  | letWord ht hf hu _ _ ih ih' =>
    refine .symbol ?_
    simp only [rule, derives_either, or_assoc]
    have habstraction := Derives.seq hf.derives (.seq (.cons hu ih) ih')
    exact .inr (.inr (.inr (.inr (.inl (.cons ht habstraction)))))
  | @withoutElse _ _ us vs _ _ _ _ hthen hbranch _ ih ih' =>
    refine .seq ih ?_
    rw [← List.append_nil (us ++ vs)]
    exact .seq (hthen.derives hbranch ih') .none
  | @withElse _ t _ us vs ws _ _ _ _ _ hthen hbranch ht _ ih ih' ih'' =>
    refine .seq ih ?_
    rw [← List.append_assoc]
    exact .seq (hthen.derives hbranch ih') (.some (.cons ht ih''))
  | name => exact .lexeme rfl
  | undefined => exact .symbol (.seq (.lexeme rfl) .none)
  | defined ht _ ih => exact .symbol (.seq (.lexeme rfl) (.some (.cons ht ih)))
  | @close i b first t next ht =>
    cases first with
    | true => exact .seq .none (derives_token ht)
    | false => exact .seq .stop (.seq .none (derives_token ht))
  | trailing ht hu => exact .seq .stop (.seq (.some (derives_token ht)) (derives_token hu))
  | itemFirst _ _ ih ih' =>
    obtain ⟨us, ws, rfl, hus, hws⟩ := derives_seq.1 (derives_assoc.2 ih')
    rw [← List.append_assoc]
    exact .seq (.some (.seq ih hus)) hws
  | itemNext ht _ _ ih ih' =>
    obtain ⟨us, ws, rfl, hus, hws⟩ := derives_seq.1 ih'
    rw [← List.append_assoc, ← List.cons_append]
    exact .seq (.more (.cons ht ih) hus) hws

theorem ReadsProgram.derives {ts : List Token} {es : List Node} (h : ReadsProgram ts es) :
    Derives (.symbol .program) ts := by
  refine .symbol ?_
  induction h with
  | nil => exact .none
  | last h => exact .some h.derives.list_last
  | cons h ht _ ih => exact .some (h.derives.list_cons ht ih)

/-- The connective after a chain binds no tighter than the level of the chain. -/
def Goal.Leveled (next : Lexeme) : Goal → Prop
  | .chain _ level => ∀ c, Parser.connective? next = some c → c.precedence ≤ level
  | _ => True

theorem Reads.leveled {g : Goal} {ts : List Token} {next : Lexeme} {r : g.Result}
    (h : Reads g ts next r) : g.Leveled next := by
  induction h with
  | chainEnd h => exact h
  | chainMore _ _ _ _ _ _ _ ih => exact ih
  | _ => trivial

theorem precedence_pos {l : Lexeme} {c : Connective} (h : Parser.connective? l = some c) :
    0 < c.precedence := by
  have hall : ∀ c ∈ Connective.all, 0 < c.precedence := by decide
  exact hall c (mem_of_connective h)

/-! ## What follows an expression -/

/-- A lexeme with which no part of an expression starts that may stand after a whole expression. -/
def Lexeme.Final (l : Lexeme) : Prop :=
  Parser.connective? l = none ∧ l ≠ .mark .openParen ∧ l ≠ .keyword .elseWord

/-- What the parser may take as a part of an expression that could have ended before it. -/
def extension : Phrase := .operator ++ .atom ||| .arguments ||| .elseBranch

/-- Where tokens that satisfy `k` follow an expression, and `last` comes after them, such tokens are
left when the parser makes more of them a part of the expression. -/
def Absorbs (last : Lexeme) (k : List Token → Prop) : Prop :=
  ∀ ts, k ts → (ahead ts last).Final ∨ extension.Before k ts

/-- After the lexeme `l` comes what makes it a part of the expression before it. -/
structure Absorbed (k : List Token → Prop) (l : Lexeme) (ts : List Token) : Prop where
  operand : ∀ c, Parser.connective? l = some c → Phrase.atom.Before k ts
  arguments : l = .mark .openParen → (Goal.items .expression .parens true).phrase.Before k ts
  branch : l = .keyword .elseWord → Phrase.expression.Before k ts

section

variable {last : Lexeme} {k : List Token → Prop} {t : Token} {ts : List Token} {p : Phrase}

theorem absorbs_of_final (h : ∀ ts, k ts → (ahead ts last).Final) : Absorbs last k :=
  fun ts hts => .inl (h ts hts)

theorem Absorbs.repeated (h : Absorbs last k)
    (hp : ∀ k ts, p.Before k ts → extension.Before k ts) :
    Absorbs last ((Phrase.repeated p).Before k) := by
  intro ts hts
  rcases before_repeated.1 hts with hmore | hk
  · exact .inr (hp _ _ hmore)
  · exact (h ts hk).imp_right fun hext => hext.mono fun vs hvs => before_repeated.2 (.inr hvs)

theorem Absorbs.connectives (h : Absorbs last k) :
    Absorbs last ((Phrase.repeated (.operator ++ .atom)).Before k) :=
  h.repeated fun _ _ hmore => before_either.2 (.inl (before_either.2 (.inl hmore)))

theorem Absorbs.calls (h : Absorbs last k) : Absorbs last ((Phrase.repeated .arguments).Before k) :=
  h.repeated fun _ _ hmore => before_either.2 (.inl (before_either.2 (.inr hmore)))

theorem Absorbs.elseBranch (h : Absorbs last k) :
    Absorbs last ((Phrase.optional .elseBranch).Before k) := by
  intro ts hts
  have hext : (ahead ts last).Final ∨ extension.Before k ts := by
    rcases before_optional.1 hts with hsome | hk
    · exact .inr (before_either.2 (.inr hsome))
    · exact h ts hk
  exact hext.imp_right fun hext => hext.mono fun vs hvs => before_optional.2 (.inr hvs)

theorem before_extension (h : extension.Before k ts) : ∃ t us, ts = t :: us ∧
    ((∃ c, Parser.connective? t.lexeme = some c) ∧ Phrase.atom.Before k us ∨
      t.lexeme = .mark .openParen ∧ (Goal.items .expression .parens true).phrase.Before k us ∨
      t.lexeme = .keyword .elseWord ∧ Phrase.expression.Before k us) := by
  rcases before_either.1 h with h | h
  · rcases before_either.1 h with h | h
    · rw [before_seq] at h
      obtain ⟨t, us, rfl, ht, hus⟩ := before_lexeme.1 h
      exact ⟨t, us, rfl, .inl ⟨isOperator_iff.1 ht, hus⟩⟩
    · obtain ⟨t, us, rfl, ht, hus⟩ := before_token_seq.1 h
      exact ⟨t, us, rfl, .inr (.inl ⟨ht, hus⟩)⟩
  · obtain ⟨t, us, rfl, ht, hus⟩ := before_token_seq.1 h
    exact ⟨t, us, rfl, .inr (.inr ⟨ht, hus⟩)⟩

theorem Absorbs.finish (h : Absorbs last k) (hk : k []) : last.Final := by
  rcases h [] hk with hfinal | hext
  · exact hfinal
  · obtain ⟨t, us, ⟨⟩, _⟩ := before_extension hext

theorem Absorbs.next (h : Absorbs last k) (hk : k (t :: ts)) : Absorbed k t.lexeme ts := by
  rcases h _ hk with ⟨hnone, hparen, helse⟩ | hext
  · refine ⟨fun c hc => ?_, fun ht => absurd ht hparen, fun ht => absurd ht helse⟩
    cases hnone.symm.trans hc
  · obtain ⟨t, ts, ⟨⟩, hcases⟩ := before_extension hext
    rcases hcases with ⟨⟨c, hc⟩, hts⟩ | ⟨ht, hts⟩ | ⟨ht, hts⟩
    · refine ⟨fun _ _ => hts, fun ht => ?_, fun ht => ?_⟩
      · rw [ht] at hc
        cases hc
      · rw [ht] at hc
        cases hc
    · rw [ht]
      exact ⟨nofun, fun _ => hts, nofun⟩
    · rw [ht]
      exact ⟨nofun, nofun, fun _ => hts⟩

end

/-! ## What is derivable can be read -/

/-- The parser, with the goal `g`, takes some of the tokens `ts`, which come before `last`, and
those that are left satisfy `k`. -/
def Goal.Finds (last : Lexeme) (k : List Token → Prop) (ts : List Token) (g : Goal) : Prop :=
  ∃ us vs r, ts = us ++ vs ∧ Reads g us (ahead vs last) r ∧ k vs

/-- Expressions among fewer than `n` tokens are found. -/
def Complete (last : Lexeme) (n : Nat) : Prop :=
  ∀ k ts, ts.length < n → Absorbs last k → Phrase.expression.Before k ts →
    (Goal.item .expression).Finds last k ts

section

variable {last : Lexeme} {n : Nat} {k : List Token → Prop} {ts : List Token}

/-- The tokens start with a mark after which an item of a list has ended. -/
def Enclosure.Delimits (b : Enclosure) (ts : List Token) : Prop :=
  ∃ t us, ts = t :: us ∧ (t.lexeme = .mark b.separator ∨ t.lexeme = .mark b.stop)

theorem Enclosure.Delimits.final {b : Enclosure} (h : b.Delimits ts) :
    (ahead ts last).Final := by
  obtain ⟨t, us, rfl, ht | ht⟩ := h
  all_goals
    cases b <;> simp [ahead, Lexeme.Final, ht, Parser.connective?, separator, stop]

theorem before_rest {i : Item} {b : Enclosure} :
    (Goal.items i b false).phrase.Before k ts ↔
      (∃ t us, ts = t :: us ∧ t.lexeme = .mark b.separator ∧
        i.phrase.Before ((Goal.items i b false).phrase.Before k) us) ∨
      (∃ t u us, ts = t :: u :: us ∧ t.lexeme = .mark b.separator ∧ u.lexeme = .mark b.stop ∧
        k us) ∨
      ∃ t us, ts = t :: us ∧ t.lexeme = .mark b.stop ∧ k us := by
  simp only [Goal.phrase, before_seq]
  rw [before_repeated]
  simp only [before_seq, before_optional, mark, before_token]
  grind

theorem delimits_rest {i : Item} {b : Enclosure}
    (h : (Goal.items i b false).phrase.Before k ts) : b.Delimits ts := by
  rcases before_rest.1 h with ⟨t, us, rfl, ht, _⟩ | ⟨t, u, us, rfl, ht, _⟩ | ⟨t, us, rfl, ht, _⟩
  · exact ⟨t, us, rfl, .inl ht⟩
  · exact ⟨t, u :: us, rfl, .inl ht⟩
  · exact ⟨t, us, rfl, .inr ht⟩

theorem finds_name (h : Phrase.identifier.Before k ts) : (Goal.item .name).Finds last k ts := by
  obtain ⟨⟨l, pos⟩, us, rfl, ht, hus⟩ := before_lexeme.1 h
  cases l with
  | identifier x => exact ⟨[_], us, x, rfl, .name, hus⟩
  | _ => cases ht

theorem finds_definition (hn : Complete last n) (hts : ts.length < n) (hk : Absorbs last k)
    (hk' : ∀ us, k us → ahead us last ≠ .operator (bytes "="))
    (h : (Phrase.symbol .binding).Before k ts) : (Goal.item .definition).Finds last k ts := by
  simp only [before_symbol, rule, before_seq] at h
  obtain ⟨⟨l, pos⟩, us, rfl, ht, hus⟩ := before_lexeme.1 h
  cases l with
  | identifier x =>
    rcases before_optional.1 hus with hus | hus
    · obtain ⟨t, us, rfl, ht, hus⟩ := before_token_seq.1 hus
      simp only [List.length_cons] at hts
      obtain ⟨us, vs, d, rfl, hd, hvs⟩ := hn k us (by omega) hk hus
      exact ⟨_ :: t :: us, vs, (x, d), rfl, .defined ht hd, hvs⟩
    · exact ⟨[_], us, (x, .missing), rfl, .undefined (hk' us hus), hus⟩
  | _ => cases ht

theorem finds_item (hn : Complete last n) (hts : ts.length < n) {b : Enclosure}
    (hk : ∀ us, k us → b.Delimits us) {i : Item} (h : i.phrase.Before k ts) :
    (Goal.item i).Finds last k ts := by
  have habsorbs : Absorbs last k := absorbs_of_final fun us hus => (hk us hus).final
  cases i with
  | expression => exact hn k ts hts habsorbs h
  | name => exact finds_name h
  | definition =>
    refine finds_definition hn hts habsorbs (fun us hus => ?_) h
    obtain ⟨t, us, rfl, ht | ht⟩ := hk us hus
    all_goals simp [ahead, ht]

theorem finds_rest (hn : Complete last n) (hts : ts.length < n) {i : Item} {b : Enclosure}
    (h : (Goal.items i b false).phrase.Before k ts) :
    (Goal.items i b false).Finds last k ts := by
  induction hlen : ts.length using Nat.strongRecOn generalizing ts with
  | ind m ih =>
    rcases before_rest.1 h with ⟨t, us, rfl, ht, hus⟩ | ⟨t, u, us, rfl, ht, hu, hus⟩ |
      ⟨t, us, rfl, ht, hus⟩
    · simp only [List.length_cons] at hts hlen
      obtain ⟨us, vs, x, rfl, hx, hvs⟩ :=
        finds_item hn (b := b) (by omega) (fun _ => delimits_rest) hus
      rw [List.length_append] at hts hlen
      obtain ⟨vs, ws, xs, rfl, hxs, hws⟩ := ih vs.length (by omega) (by omega) hvs rfl
      rw [ahead_append] at hx
      exact ⟨t :: (us ++ vs), ws, x :: xs, by simp, .itemNext ht hx hxs, hws⟩
    · exact ⟨[t, u], us, [], rfl, .trailing ht hu, hus⟩
    · exact ⟨[t], us, [], rfl, .close ht, hus⟩

theorem before_items {i : Item} {b : Enclosure} :
    (Goal.items i b true).phrase.Before k ts ↔
      i.phrase.Before ((Goal.items i b false).phrase.Before k) ts ∨ (mark b.stop).Before k ts := by
  simp only [Goal.phrase, list, before_seq, before_optional]

theorem finds_items (hn : Complete last n) (hts : ts.length < n) {i : Item} {b : Enclosure}
    (h : (Goal.items i b true).phrase.Before k ts) : (Goal.items i b true).Finds last k ts := by
  rcases before_items.1 h with h | h
  · obtain ⟨us, vs, x, rfl, hx, hvs⟩ := finds_item hn (b := b) hts (fun _ => delimits_rest) h
    rw [List.length_append] at hts
    obtain ⟨vs, ws, xs, rfl, hxs, hws⟩ := finds_rest hn (by omega) hvs
    rw [ahead_append] at hx
    exact ⟨us ++ vs, ws, x :: xs, by simp, .itemFirst hx hxs, hws⟩
  · obtain ⟨t, us, rfl, ht, hus⟩ := before_token.1 h
    exact ⟨[t], us, [], rfl, .close ht, hus⟩

theorem finds_calls (hn : Complete last n) (hk : Absorbs last k) (callee : Node)
    (hts : ts.length ≤ n) (h : (Phrase.repeated .arguments).Before k ts) :
    (Goal.calls callee).Finds last k ts := by
  induction hlen : ts.length using Nat.strongRecOn generalizing callee ts with
  | ind m ih =>
    by_cases hparen : ahead ts last = .mark .openParen
    · cases ts with
      | nil => exact absurd hparen (hk.calls.finish h).2.1
      | cons t ts =>
        obtain ⟨us, vs, args, rfl, hargs, hvs⟩ :=
          finds_items hn (Nat.lt_of_succ_le hts) ((hk.calls.next h).arguments hparen)
        simp only [List.length_append, List.length_cons] at hts hlen
        obtain ⟨vs, ws, e, rfl, he, hws⟩ :=
          ih vs.length (by omega) (.call callee.pos callee args) (by omega) hvs rfl
        rw [ahead_append] at hargs
        exact ⟨t :: (us ++ vs), ws, e, by simp, .callsMore hparen hargs he, hws⟩
    · refine ⟨[], ts, callee, rfl, .callsEnd hparen, ?_⟩
      rcases before_repeated.1 h with h | h
      · obtain ⟨t, us, rfl, ht, _⟩ := before_token_seq.1 h
        exact absurd ht hparen
      · exact h

theorem finds_branches (hn : Complete last n) (hk : Absorbs last k) (pos : Pos) {us : List Token}
    {c : Node} (hc : Reads (.item .expression) us (ahead ts last) c) (hts : ts.length < n)
    (h : Phrase.thenBranch.Before ((Phrase.optional .elseBranch).Before k) ts) :
    (Goal.conditional pos).Finds last k (us ++ ts) := by
  -- What stands before the first branch.
  obtain ⟨vs, ws, rfl, hvs, hws⟩ : ∃ vs ws, ts = vs ++ ws ∧ ReadsThen vs (ahead ws last) ∧
      Phrase.expression.Before ((Phrase.optional .elseBranch).Before k) ws := by
    rcases before_either.1 h with h | h
    · obtain ⟨t, ws, rfl, ht, hws⟩ := before_token_seq.1 h
      exact ⟨[t], ws, rfl, .word ht _, hws⟩
    · obtain ⟨t, ws, rfl, ht, hws⟩ := h.of_opening
      refine ⟨[], t :: ws, rfl, ?_, hws⟩
      rw [ahead, ht]
      exact .brace
  rw [List.length_append] at hts
  obtain ⟨ws, xs, whenTrue, rfl, htrue, hxs⟩ := hn _ ws (by omega) hk.elseBranch hws
  rw [ahead_append] at hvs
  by_cases helse : ahead xs last = .keyword .elseWord
  · cases xs with
    | nil => exact absurd helse (hk.elseBranch.finish hxs).2.2
    | cons t xs =>
      have hxs : Phrase.expression.Before k xs := by
        rcases before_optional.1 hxs with hxs | hxs
        · obtain ⟨t, xs, ⟨⟩, _, hxs⟩ := before_token_seq.1 hxs
          exact hxs
        · exact (hk.next hxs).branch helse
      simp only [List.length_append, List.length_cons] at hts
      obtain ⟨xs, ys, whenFalse, rfl, hfalse, hys⟩ := hn k xs (by omega) hk hxs
      rw [← List.cons_append, ← List.append_assoc ws, ← List.append_assoc vs, ahead_append] at hc
      refine ⟨us ++ (vs ++ (ws ++ t :: xs)), ys, .branch pos c whenTrue whenFalse, by simp, ?_, hys⟩
      exact .withElse hc hvs htrue helse hfalse
  · have hxs : k xs := by
      rcases before_optional.1 hxs with hxs | hxs
      · obtain ⟨t, xs, rfl, ht, _⟩ := before_token_seq.1 hxs
        exact absurd ht helse
      · exact hxs
    rw [← List.append_assoc, ahead_append] at hc
    refine ⟨us ++ (vs ++ ws), xs, .branch pos c whenTrue .missing, by simp, ?_, hxs⟩
    exact .withoutElse hc hvs htrue helse

theorem finds_conditional (hn : Complete last n) (hk : Absorbs last k) (pos : Pos)
    (hts : ts.length < n) (h : Phrase.conditional.Before k ts) :
    (Goal.conditional pos).Finds last k ts := by
  rw [Phrase.conditional, before_seq, before_seq] at h
  have hthen :
      Absorbs last (Phrase.thenBranch.Before ((Phrase.optional .elseBranch).Before k)) := by
    refine absorbs_of_final fun us hus => ?_
    rcases before_either.1 hus with hus | hus
    · obtain ⟨t, us, rfl, ht, _⟩ := before_token_seq.1 hus
      simp [ahead, ht, Lexeme.Final, Parser.connective?]
    · obtain ⟨t, us, rfl, ht, _⟩ := hus.of_opening
      simp [ahead, ht, Lexeme.Final, Parser.connective?]
  obtain ⟨us, vs, c, rfl, hc, hvs⟩ := hn _ ts hts hthen h
  rw [List.length_append] at hts
  exact finds_branches hn hk pos hc (by omega) hvs

theorem finds_abstraction (hn : Complete last n) (hk : Absorbs last k) {i : Item}
    (hts : ts.length < n) (h : (Phrase.abstraction i.phrase).Before k ts) :
    ∃ names u us vs ws f xs e, ts = names ++ u :: (us ++ vs) ++ ws ∧ ReadsName names f ∧
      u.lexeme = .mark .openParen ∧ Reads (.items i .parens true) us (ahead vs (ahead ws last)) xs ∧
      Reads (.item .expression) vs (ahead ws last) e ∧ k ws := by
  rw [abstraction, before_seq, before_seq] at h
  obtain ⟨names, f, ts, rfl, hf, h⟩ : ∃ names f us, ts = names ++ us ∧ ReadsName names f ∧
      (enclosed .openParen .comma .closeParen i.phrase).Before (Phrase.expression.Before k) us := by
    rcases before_optional.1 h with h | h
    · obtain ⟨⟨l, pos⟩, us, rfl, hl, hus⟩ := before_lexeme.1 h
      cases l with
      | identifier f => exact ⟨[_], some f, us, rfl, .some f pos, hus⟩
      | _ => cases hl
    · exact ⟨[], none, ts, rfl, .none, h⟩
  obtain ⟨u, us, rfl, hu, hus⟩ := before_token_seq.1 h
  simp only [List.length_append, List.length_cons] at hts
  obtain ⟨us, vs, xs, rfl, hxs, hvs⟩ := finds_items (b := .parens) hn (by omega) hus
  rw [List.length_append] at hts
  obtain ⟨vs, ws, e, rfl, he, hws⟩ := hn k vs (by omega) hk hvs
  rw [ahead_append] at hxs
  exact ⟨names, u, us, vs, ws, f, xs, e, by simp, hf, hu, hxs, he, hws⟩

theorem finds_paren (hn : Complete last n) (hts : ts.length ≤ n)
    (h : (mark .openParen ++ (Phrase.expression ++ mark .closeParen)).Before k ts) :
    Goal.primary.Finds last k ts := by
  obtain ⟨t, ts, rfl, ht, h⟩ := before_token_seq.1 h
  rw [before_seq] at h
  have hclose : Absorbs last ((mark .closeParen).Before k) := by
    refine absorbs_of_final fun us hus => ?_
    obtain ⟨u, us, rfl, hu, _⟩ := before_token.1 hus
    simp [ahead, hu, Lexeme.Final, Parser.connective?]
  obtain ⟨us, vs, e, rfl, he, hvs⟩ := hn _ ts hts hclose h
  obtain ⟨u, vs, rfl, hu, hvs⟩ := before_token.1 hvs
  rw [ahead, hu] at he
  exact ⟨t :: (us ++ [u]), vs, e, by simp, .paren ht hu he, hvs⟩

theorem finds_block (hn : Complete last n) (hts : ts.length ≤ n)
    (h : (enclosed .openBrace .semicolon .closeBrace .expression).Before k ts) :
    Goal.primary.Finds last k ts := by
  obtain ⟨t, ts, rfl, ht, h⟩ := before_token_seq.1 h
  obtain ⟨us, vs, body, rfl, hbody, hvs⟩ := finds_items (i := .expression) (b := .braces) hn hts h
  exact ⟨t :: us, vs, _, rfl, .block ht hbody, hvs⟩

theorem finds_primary (hn : Complete last n) (hk : Absorbs last k)
    (hts : ts.length ≤ n) (h : (Phrase.symbol .primary).Before k ts) :
    Goal.primary.Finds last k ts := by
  simp only [before_symbol, rule, before_either, or_assoc] at h
  rcases h with h | h | h | h | h | h
  · exact finds_paren hn hts h
  · exact finds_block hn hts h
  · obtain ⟨t, ts, rfl, ht, h⟩ := before_token_seq.1 h
    obtain ⟨us, vs, e, rfl, he, hvs⟩ := finds_conditional hn hk t.pos hts h
    exact ⟨t :: us, vs, e, rfl, .ifWord ht he, hvs⟩
  · obtain ⟨t, ts, rfl, ht, h⟩ := before_token_seq.1 h
    obtain ⟨names, u, us, vs, ws, f, params, e, rfl, hf, hu, hparams, he, hws⟩ :=
      finds_abstraction (i := .name) hn hk hts h
    exact ⟨_, ws, _, rfl, .lambdaWord ht hf hu hparams he, hws⟩
  · obtain ⟨t, ts, rfl, ht, h⟩ := before_token_seq.1 h
    obtain ⟨names, u, us, vs, ws, f, bindings, e, rfl, hf, hu, hbindings, he, hws⟩ :=
      finds_abstraction (i := .definition) hn hk hts h
    exact ⟨_, ws, _, rfl, .letWord ht hf hu hbindings he, hws⟩
  · obtain ⟨t, us, e, rfl, he, hus⟩ := before_leaf.1 h
    exact ⟨[t], us, e, rfl, .leaf he, hus⟩

theorem finds_operand (hn : Complete last n) (hk : Absorbs last k)
    (hts : ts.length ≤ n) (h : Phrase.atom.Before k ts) : Goal.operand.Finds last k ts := by
  rw [atom, before_symbol, rule, before_seq] at h
  obtain ⟨us, vs, a, rfl, ha, hvs⟩ := finds_primary hn hk.calls hts h
  rw [List.length_append] at hts
  obtain ⟨vs, ws, e, rfl, he, hws⟩ := finds_calls hn hk a (by omega) hvs
  rw [ahead_append] at ha
  exact ⟨us ++ vs, ws, e, by simp, .operand ha he, hws⟩

/-- What a chain leaves may start with a connective of a lower level. -/
theorem finds_chain (hn : Complete last n) (hk : Absorbs last k) (left : Node) (level : Nat)
    (hts : ts.length ≤ n) (h : (Phrase.repeated (.operator ++ .atom)).Before k ts) :
    (Goal.chain left level).Finds last ((Phrase.repeated (.operator ++ .atom)).Before k) ts := by
  induction hlen : ts.length using Nat.strongRecOn generalizing left level ts with
  | ind m ih =>
    by_cases hend : ∃ c, Parser.connective? (ahead ts last) = some c ∧ level < c.precedence
    · obtain ⟨c, hc, hlevel⟩ := hend
      cases ts with
      | nil => cases hc.symm.trans (hk.connectives.finish h).1
      | cons t ts =>
        obtain ⟨us, vs, a, rfl, ha, hvs⟩ :=
          finds_operand hn hk.connectives (Nat.le_of_succ_le hts)
            ((hk.connectives.next h).operand c hc)
        simp only [List.length_append, List.length_cons] at hts hlen
        obtain ⟨vs, ws, right, rfl, hright, hws⟩ :=
          ih vs.length (by omega) a c.precedence (by omega) hvs rfl
        simp only [List.length_append] at hts hlen
        obtain ⟨ws, xs, e, rfl, he, hxs⟩ :=
          ih ws.length (by omega) (Parser.combine c left right) level (by omega) hws rfl
        rw [← List.append_assoc, ahead_append] at ha
        rw [ahead_append] at hright
        exact ⟨t :: (us ++ (vs ++ ws)), xs, e, by simp, .chainMore hc hlevel ha hright he, hxs⟩
    · refine ⟨[], ts, left, rfl, .chainEnd fun c hc => ?_, h⟩
      exact Nat.le_of_not_lt fun hlevel => hend ⟨c, hc, hlevel⟩

theorem Complete.succ (hn : Complete last n) : Complete last (n + 1) := by
  intro k ts hts hk h
  rw [expression, before_symbol, rule, before_seq] at h
  obtain ⟨us, vs, a, rfl, ha, hvs⟩ := finds_operand hn hk.connectives (Nat.le_of_lt_succ hts) h
  rw [List.length_append] at hts
  obtain ⟨vs, ws, e, rfl, he, hws⟩ := finds_chain hn hk a 0 (by omega) hvs
  rw [ahead_append] at ha
  refine ⟨us ++ vs, ws, e, by simp, .expression ha he, ?_⟩
  -- Every connective binds tighter than level 0, so the chain has taken them all.
  rcases before_repeated.1 hws with hws | hws
  · rw [before_seq] at hws
    obtain ⟨t, ws, rfl, ht, _⟩ := before_lexeme.1 hws
    obtain ⟨c, hc⟩ := isOperator_iff.1 ht
    have := he.leveled c hc
    have := precedence_pos hc
    omega
  · exact hws

end

/-- Where an expression can be derived, the parser finds one. -/
theorem complete (last : Lexeme) (n : Nat) : Complete last n := by
  induction n with
  | zero => exact fun _ _ h => absurd h (Nat.not_lt_zero _)
  | succ n ih => exact ih.succ

/-- What follows an expression of a program. -/
def Ends (ts : List Token) : Prop :=
  ts = [] ∨ ∃ t us, ts = t :: us ∧ t.lexeme = .mark .semicolon ∧
    (us = [] ∨ Derives (list .semicolon .expression) us)

theorem derives_statements_iff {ts : List Token} :
    Derives (list .semicolon .expression) ts ↔ Phrase.expression.Before Ends ts := by
  have hends : (Phrase.repeated (mark .semicolon ++ .expression)).Before
      ((Phrase.optional (mark .semicolon)).Before (· = [])) = Ends := by
    funext us
    rw [before_repeated, before_optional, mark, before_token_seq, before_token]
    simp only [Ends, ← before_nil, list, before_seq, mark]
    grind
  rw [← before_nil, list, before_seq, before_seq, hends]

theorem exists_readsProgram {ts : List Token} (h : Derives (list .semicolon .expression) ts) :
    ∃ es, ReadsProgram ts es := by
  have habsorbs : Absorbs .endOfInput Ends := by
    refine absorbs_of_final fun us hus => ?_
    rcases hus with rfl | ⟨t, vs, rfl, ht, _⟩
    · simp [ahead, Lexeme.Final, Parser.connective?]
    · simp [ahead, Lexeme.Final, Parser.connective?, ht]
  induction hlen : ts.length using Nat.strongRecOn generalizing ts with
  | ind m ih =>
    obtain ⟨us, vs, e, rfl, he, hvs⟩ := complete .endOfInput (ts.length + 1) Ends ts
      (Nat.lt_succ_self _) habsorbs (derives_statements_iff.1 h)
    rcases hvs with rfl | ⟨t, vs, rfl, ht, rfl | hvs⟩
    · rw [List.append_nil]
      exact ⟨[e], .last he⟩
    · exact ⟨[e], .cons he ht .nil⟩
    · simp only [List.length_append, List.length_cons] at hlen
      obtain ⟨es, hes⟩ := ih vs.length (by omega) hvs rfl
      exact ⟨e :: es, .cons he ht hes⟩

theorem derives_program_iff {ts : List Token} :
    Derives (.symbol .program) ts ↔ ∃ es, ReadsProgram ts es := by
  constructor
  · intro h
    rw [derives_symbol, rule] at h
    cases h with
    | none => exact ⟨[], .nil⟩
    | some h => exact exists_readsProgram h
  · rintro ⟨es, h⟩
    exact h.derives

/-- A source has a program exactly if it can be scanned to its end and the grammar derives its
tokens. Any other source has an error of scanning or of parsing. -/
theorem Program.parse_ok_iff_derives (source : Text) :
    ((∃ p, Program.parse source = .ok p) ↔
      ∃ ts, (Cursor.ofSource source).Scans ts ∧ Derives (.symbol .program) ts) ∧
    ((∃ e, Program.parse source = .error e ∧ (e.code? = some .lex ∨ e.code? = some .parse)) ↔
      ¬ ∃ ts, (Cursor.ofSource source).Scans ts ∧ Derives (.symbol .program) ts) := by
  have hok : (∃ p, Program.parse source = .ok p) ↔
      ∃ ts, (Cursor.ofSource source).Scans ts ∧ Derives (.symbol .program) ts := by
    constructor
    · rintro ⟨p, hp⟩
      obtain ⟨ts, pos, hts, hreads, _⟩ := parse_eq_ok_iff.1 hp
      exact ⟨ts, Stream.ofSource_eq_iff.1 ⟨pos, hts⟩, hreads.derives⟩
    · rintro ⟨ts, hscans, hderives⟩
      obtain ⟨pos, hts⟩ := Stream.ofSource_eq_iff.2 hscans
      obtain ⟨es, hreads⟩ := derives_program_iff.1 hderives
      exact ⟨⟨firstPos pos ts, es⟩, parse_eq_ok_iff.2 ⟨ts, pos, hts, hreads, rfl⟩⟩
  refine ⟨hok, ?_⟩
  rw [← hok]
  cases h : Program.parse source with
  | ok p => simp
  | error e => simp [code_of_parse_error h]

end Mycel
