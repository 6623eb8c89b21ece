import Mycel.Proofs.Syntax.Recognition

/-!
# Precedence

A chain is a number of operands with connectives between them. Its tree is cut at the last of the
connectives that bind least: that one is applied to the trees of both sides (`Chain.tree`). The
parser instead goes from left to right and compares each connective with a level. For operands that
end by themselves, which `Grammar.Phrase.closed` describes, both give the same tree.
-/

namespace Mycel

open Grammar Grammar.Phrase

/-! ## Trees of chains -/

namespace Chain

/-- A connective and the operand after it. -/
structure Link where
  connective : Connective
  operand : Node

def Link.precedence (x : Link) : Nat := x.connective.precedence

/-- Cuts a chain at the last of its connectives of least precedence. -/
def cut : List Link → Option (List Link × Link × List Link)
  | [] => none
  | x :: rest =>
    match cut rest with
    | none => some ([], x, [])
    | some (l, y, r) =>
      if y.precedence ≤ x.precedence then some (x :: l, y, r) else some ([], x, rest)

/-- The node of a connective between two trees, at the position of the first operand. -/
def join (c : Connective) (pos : Pos) (left right : Node) : Node :=
  match c with
  | .and => .branch pos left right .missing
  | .or => .branch pos left .missing right
  | .assign => .assign pos left right
  | .operator o => .binary pos o left right

theorem cut_eq_none {links : List Link} (h : cut links = none) : links = [] := by
  cases links with
  | nil => rfl
  | cons x rest =>
    simp only [cut] at h
    split at h
    · cases h
    · split at h <;> cases h

/-- What `cut` does: it finds the one connective that binds less than all those after it and not
tighter than those before it. -/
theorem cut_eq_some {links l r : List Link} {x : Link} (h : cut links = some (l, x, r)) :
    links = l ++ x :: r ∧ (∀ y ∈ l, x.precedence ≤ y.precedence) ∧
      ∀ y ∈ r, x.precedence < y.precedence := by
  induction links generalizing l x r with
  | nil => cases h
  | cons y rest ih =>
    simp only [cut] at h
    split at h
    · rename_i hrest
      cases h
      rw [cut_eq_none hrest]
      simp
    · rename_i l' z r' hrest
      obtain ⟨rfl, hl, hr⟩ := ih hrest
      split at h
      · rename_i hle
        cases h
        exact ⟨rfl, List.forall_mem_cons.2 ⟨hle, hl⟩, hr⟩
      · rename_i hlt
        cases h
        refine ⟨rfl, List.forall_mem_nil _, fun w hw => ?_⟩
        have hz : y.precedence < z.precedence := Nat.lt_of_not_le hlt
        rcases List.mem_append.1 hw with hw | hw
        · exact Nat.lt_of_lt_of_le hz (hl w hw)
        · rcases List.mem_cons.1 hw with rfl | hw
          · exact hz
          · exact Nat.lt_trans hz (hr w hw)

/-- The tree of a chain: of an operand that is all of the chain, the operand itself. -/
def tree (a : Node) (links : List Link) : Node :=
  match _h : cut links with
  | none => a
  | some (l, x, r) => join x.connective a.pos (tree a l) (tree x.operand r)
termination_by links.length
decreasing_by
  all_goals
    rw [(cut_eq_some _h).1, List.length_append, List.length_cons]
    omega

theorem tree_nil (a : Node) : tree a [] = a := by
  rw [tree]
  rfl

theorem tree_of_cut {links l r : List Link} {x : Link} (h : cut links = some (l, x, r)) (a : Node) :
    tree a links = join x.connective a.pos (tree a l) (tree x.operand r) := by
  rw [tree]
  split
  · rename_i hnone
    cases h.symm.trans hnone
  · rename_i hcut
    cases h.symm.trans hcut
    rfl

theorem pos_tree (a : Node) (links : List Link) : (tree a links).pos = a.pos := by
  unfold tree
  split
  · rfl
  · rename_i l x r _
    cases hc : x.connective <;> rfl

theorem combine_eq_join (c : Connective) (left right : Node) :
    Parser.combine c left right = join c left.pos left right := by
  cases c <;> rfl

end Chain

/-! ## Closed operands -/

namespace Grammar.Phrase

/-- A primary expression that ends by itself. -/
def enclosure : Phrase :=
  mark .openParen ++ (expression ++ mark .closeParen) |||
    enclosed .openBrace .semicolon .closeBrace expression ||| leaf

/-- An operand that ends by itself: what follows it can not belong to it, except for arguments. -/
def closed : Phrase := enclosure ++ repeated arguments

def chain : Phrase := closed ++ repeated (operator ++ closed)

end Grammar.Phrase

/-- Tokens that are an expression, and the tree that they have as a source of their own. -/
def Means (ts : List Token) (e : Node) : Prop :=
  Derives .expression ts ∧
    ∀ pos, Program.ofStream (.prepend ts (.finish pos)) = .ok ⟨firstPos pos ts, [e]⟩

/-- The trees of a list of expressions. After the last one may be a separator. -/
inductive Lists (b : Enclosure) : List Token → List Node → Prop
  | nil : Lists b [] []
  | last {ts : List Token} {e : Node} (h : Means ts e) : Lists b ts [e]
  | cons {ts us : List Token} {t : Token} {e : Node} {es : List Node} (h : Means ts e)
      (ht : t.lexeme = .mark b.separator) (rest : Lists b us es) :
      Lists b (ts ++ t :: us) (e :: es)

/-- The tree of a closed operand. Arguments belong to the operand before them. -/
inductive Closed : List Token → Node → Prop
  | leaf {t : Token} {e : Node} (h : leaf? t = some e) : Closed [t] e
  | paren {t u : Token} {ts : List Token} {e : Node} (ht : t.lexeme = .mark .openParen)
      (h : Means ts e) (hu : u.lexeme = .mark .closeParen) : Closed (t :: (ts ++ [u])) e
  | block {t u : Token} {ts : List Token} {es : List Node} (ht : t.lexeme = .mark .openBrace)
      (h : Lists .braces ts es) (hu : u.lexeme = .mark .closeBrace) :
      Closed (t :: (ts ++ [u])) (Parser.block t.pos es)
  | call {t u : Token} {ts us : List Token} {a : Node} {es : List Node} (callee : Closed ts a)
      (ht : t.lexeme = .mark .openParen) (h : Lists .parens us es)
      (hu : u.lexeme = .mark .closeParen) : Closed (ts ++ t :: (us ++ [u])) (.call a.pos a es)

theorem Reads.before {g : Goal} {ts us : List Token} {next next' : Lexeme} {r : g.Result}
    (h : Reads g ts (ahead us next) r) (h' : Reads g ts next' r) :
    Reads g ts (ahead us next') r := by
  cases us with
  | nil => exact h'
  | cons u us => exact h

/-- What follows an expression and can not belong to it makes no difference to it. -/
theorem Reads.next {g : Goal} {ts : List Token} {next next' : Lexeme} {r : g.Result}
    (h : Reads g ts next r) (hnext : next'.Final) : Reads g ts next' r := by
  obtain ⟨hnone, hparen, helse⟩ := hnext
  induction h with
  | expression first _ ih ih' => exact .expression (first.before ih) ih'
  | chainEnd h => exact .chainEnd fun c hc => nomatch hnone.symm.trans hc
  | chainMore hc hlevel first rest _ ih ih' ih'' =>
    exact .chainMore hc hlevel (first.before ih) (rest.before ih') ih''
  | callsEnd h => exact .callsEnd hparen
  | callsMore ht list _ ih ih' => exact .callsMore ht (list.before ih) ih'
  | operand first _ ih ih' => exact .operand (first.before ih) ih'
  | leaf h => exact .leaf h
  | paren ht hu inside _ => exact .paren ht hu inside
  | block ht _ ih => exact .block ht ih
  | ifWord ht _ ih => exact .ifWord ht ih
  | lambdaWord ht hf hu list _ ih ih' => exact .lambdaWord ht hf hu (list.before ih) ih'
  | letWord ht hf hu list _ ih ih' => exact .letWord ht hf hu (list.before ih) ih'
  | withoutElse first hthen branch _ ih ih' =>
    obtain ⟨t, vs, rfl, _⟩ := branch.opened
    exact .withoutElse (first.before ih) hthen ih' helse
  | withElse first hthen branch ht _ ih _ ih' =>
    exact .withElse (first.before ih) hthen branch ht ih'
  | name => exact .name
  | undefined _ => exact .undefined fun h => by cases h ▸ hnone
  | defined ht _ ih => exact .defined ht ih
  | close ht => exact .close ht
  | trailing ht hu => exact .trailing ht hu
  | itemFirst first _ ih ih' => exact .itemFirst (first.before ih) ih'
  | itemNext ht first _ ih ih' => exact .itemNext ht (first.before ih) ih'

theorem exists_reads {ts : List Token} (h : Derives .expression ts) :
    ∃ e, Reads (.item .expression) ts .endOfInput e := by
  have hend : Absorbs .endOfInput (· = []) := by
    refine absorbs_of_final fun us hus => ?_
    rw [hus]
    simp [ahead, Lexeme.Final, Parser.connective?]
  obtain ⟨us, vs, e, rfl, he, rfl⟩ :=
    complete .endOfInput (ts.length + 1) _ ts (Nat.lt_succ_self _) hend (before_nil.2 h)
  rw [List.append_nil]
  exact ⟨e, he⟩

theorem means_iff {ts : List Token} {e : Node} :
    Means ts e ↔ Reads (.item .expression) ts .endOfInput e := by
  constructor
  · rintro ⟨hts, hprogram⟩
    obtain ⟨e', he'⟩ := exists_reads hts
    cases (Program.ofStream_of_reads (.last he') .none).symm.trans (hprogram .none)
    exact he'
  · intro h
    exact ⟨h.derives, Program.ofStream_of_reads (.last h)⟩

theorem Means.reads {ts : List Token} {e : Node} (h : Means ts e) {next : Lexeme}
    (hnext : next.Final) : Reads (.item .expression) ts next e :=
  (means_iff.1 h).next hnext

theorem Lists.reads {b : Enclosure} {ts : List Token} {es : List Node} (h : Lists b ts es)
    {u : Token} (hu : u.lexeme = .mark b.stop) (next : Lexeme) :
    Reads (.items .expression b true) (ts ++ [u]) next es ∧ ∀ t : Token,
      t.lexeme = .mark b.separator →
        Reads (.items .expression b false) (t :: (ts ++ [u])) next es := by
  induction h with
  | nil => exact ⟨.close hu, fun t ht => .trailing ht hu⟩
  | @last ts e h =>
    have he : Reads (.item .expression) ts (ahead [u] next) e :=
      h.reads (Enclosure.Delimits.final ⟨u, [], rfl, .inr hu⟩)
    exact ⟨.itemFirst he (.close hu), fun t ht => .itemNext ht he (.close hu)⟩
  | @cons ts us t e es h ht _ ih =>
    have he : Reads (.item .expression) ts (ahead (t :: (us ++ [u])) next) e :=
      h.reads (Enclosure.Delimits.final ⟨t, _, rfl, .inl ht⟩)
    rw [List.append_assoc]
    exact ⟨.itemFirst he (ih.2 t ht), fun t' ht' => .itemNext ht' he (ih.2 t ht)⟩

/-- A closed operand is read together with the arguments after it. -/
theorem Closed.reads {ts us : List Token} {a e : Node} {next : Lexeme} (h : Closed ts a)
    (hcalls : Reads (.calls a) us next e) : Reads .operand (ts ++ us) next e := by
  induction h generalizing us with
  | leaf h => exact .operand (.leaf h) hcalls
  | paren ht h hu =>
    have hfinal : (Lexeme.mark .closeParen).Final := by simp [Lexeme.Final, Parser.connective?]
    exact .operand (.paren ht hu (h.reads hfinal)) hcalls
  | block ht h hu => exact .operand (.block ht (h.reads hu _).1) hcalls
  | @call t u ts vs a es callee ht h hu ih =>
    rw [List.append_assoc]
    exact ih (.callsMore ht (h.reads hu _).1 hcalls)

theorem Lists.derives {b : Enclosure} {ts : List Token} {es : List Node} (h : Lists b ts es) :
    Derives (.optional (.list b.separator .expression)) ts := by
  induction h with
  | nil => exact .none
  | last h => exact .some h.1.list_last
  | cons h ht _ ih => exact .some (h.1.list_cons ht ih)

theorem Closed.derives {ts : List Token} {a : Node} (h : Closed ts a) : Derives .closed ts := by
  have hclosed : ∀ {us}, Derives .enclosure us → Derives .closed us := by
    intro us hus
    rw [← List.append_nil us]
    exact .seq hus .stop
  induction h with
  | @leaf t e h =>
    exact hclosed (.right (before_nil.1 (before_leaf.2 ⟨t, [], e, rfl, h, rfl⟩)))
  | paren ht h hu => exact hclosed (.left (.left (.cons ht (.seq h.1 (derives_token hu)))))
  | @block t u ts es ht h hu =>
    exact hclosed (.left (.right (derives_enclosed.2 ⟨t, ts, u, rfl, ht, h.derives, hu⟩)))
  | @call t u ts us a es _ ht h hu ih =>
    obtain ⟨ts, vs, rfl, hts, hvs⟩ := derives_seq.1 ih
    have hargs : Derives .arguments (t :: (us ++ [u])) :=
      derives_enclosed.2 ⟨t, us, u, rfl, ht, h.derives, hu⟩
    have hcalls := hvs.append (.more hargs .stop)
    rw [List.append_nil] at hcalls
    rw [List.append_assoc]
    exact .seq hts hcalls

theorem exists_means {ts : List Token} (h : Derives .expression ts) : ∃ e, Means ts e := by
  obtain ⟨e, he⟩ := exists_reads h
  exact ⟨e, means_iff.2 he⟩

theorem exists_lists_append {b : Enclosure} {us vs ws : List Token} (hus : Derives .expression us)
    (hvs : Derives (.repeated (.mark b.separator ++ .expression)) vs)
    (hws : Derives (.optional (.mark b.separator)) ws) : ∃ es, Lists b (us ++ (vs ++ ws)) es := by
  induction hvs using Derives.repetitions generalizing us with
  | stop =>
    obtain ⟨e, he⟩ := exists_means hus
    cases hws with
    | none => exact ⟨[e], (List.append_nil us).symm ▸ .last he⟩
    | some hws =>
      obtain ⟨t, ws, rfl, ht, rfl⟩ := before_token.1 (before_nil.2 hws)
      exact ⟨[e], .cons he ht .nil⟩
  | more hitem _ ih =>
    obtain ⟨e, he⟩ := exists_means hus
    obtain ⟨t, vs, rfl, ht, hvs⟩ := derives_token_seq.1 hitem
    obtain ⟨es, hes⟩ := ih hvs
    rw [List.append_assoc]
    exact ⟨e :: es, .cons he ht hes⟩

theorem exists_lists {b : Enclosure} {ts : List Token}
    (h : Derives (.optional (.list b.separator .expression)) ts) : ∃ es, Lists b ts es := by
  cases h with
  | none => exact ⟨[], .nil⟩
  | some h =>
    obtain ⟨us, vs, rfl, hus, hvs⟩ := derives_seq.1 h
    obtain ⟨vs, ws, rfl, hvs, hws⟩ := derives_seq.1 hvs
    exact exists_lists_append hus hvs hws

theorem exists_enclosure {ts : List Token} (h : Derives .enclosure ts) : ∃ a, Closed ts a := by
  simp only [enclosure, derives_either, or_assoc] at h
  rcases h with h | h | h
  · obtain ⟨t, us, rfl, ht, hus⟩ := derives_token_seq.1 h
    obtain ⟨vs, ws, rfl, hvs, hws⟩ := derives_seq.1 hus
    obtain ⟨u, ws, rfl, hu, rfl⟩ := before_token.1 (before_nil.2 hws)
    obtain ⟨e, he⟩ := exists_means hvs
    exact ⟨e, .paren ht he hu⟩
  · obtain ⟨t, us, u, rfl, ht, hus, hu⟩ := derives_enclosed.1 h
    obtain ⟨es, hes⟩ := exists_lists (b := .braces) hus
    exact ⟨_, .block ht hes hu⟩
  · obtain ⟨t, us, e, rfl, he, rfl⟩ := before_leaf.1 (before_nil.2 h)
    exact ⟨e, .leaf he⟩

theorem Closed.exists_calls {us vs : List Token} {a : Node} (h : Closed us a)
    (hvs : Derives (.repeated .arguments) vs) : ∃ b, Closed (us ++ vs) b := by
  induction hvs using Derives.repetitions generalizing us a with
  | stop => exact ⟨a, (List.append_nil us).symm ▸ h⟩
  | more hargs _ ih =>
    obtain ⟨t, vs, u, rfl, ht, hvs, hu⟩ := derives_enclosed.1 hargs
    obtain ⟨es, hes⟩ := exists_lists (b := .parens) hvs
    rw [← List.append_assoc]
    exact ih (.call h ht hes hu)

theorem exists_closed {ts : List Token} (h : Derives .closed ts) : ∃ a, Closed ts a := by
  obtain ⟨us, vs, rfl, hus, hvs⟩ := derives_seq.1 h
  obtain ⟨a, ha⟩ := exists_enclosure hus
  exact ha.exists_calls hvs

/-! ## Chains -/

/-- The connectives and the trees of the operands in the rest of a chain. -/
inductive Linked : List Token → List Chain.Link → Prop
  | nil : Linked [] []
  | cons {t : Token} {c : Connective} {us vs : List Token} {b : Node} {links : List Chain.Link}
      (hc : Parser.connective? t.lexeme = some c) (h : Closed us b) (rest : Linked vs links) :
      Linked (t :: (us ++ vs)) (⟨c, b⟩ :: links)

/-- The operands and the connectives of a chain. -/
def Spells (ts : List Token) (a : Node) (links : List Chain.Link) : Prop :=
  ∃ us vs, ts = us ++ vs ∧ Closed us a ∧ Linked vs links

theorem Linked.derives {ts : List Token} {links : List Chain.Link} (h : Linked ts links) :
    Derives (.repeated (.operator ++ .closed)) ts := by
  induction h with
  | nil => exact .stop
  | cons hc hb _ ih => exact .more (.seq (.lexeme (isOperator_iff.2 ⟨_, hc⟩)) hb.derives) ih

theorem exists_linked {ts : List Token} (h : Derives (.repeated (.operator ++ .closed)) ts) :
    ∃ links, Linked ts links := by
  induction h using Derives.repetitions with
  | stop => exact ⟨[], .nil⟩
  | more hlink _ ih =>
    obtain ⟨links, hlinks⟩ := ih
    obtain ⟨ts, us, rfl, ht, hus⟩ := derives_seq.1 hlink
    obtain ⟨b, hb⟩ := exists_closed hus
    cases ht with
    | lexeme ht =>
      obtain ⟨c, hc⟩ := isOperator_iff.1 ht
      exact ⟨⟨c, b⟩ :: links, .cons hc hb hlinks⟩

theorem derives_chain_iff {ts : List Token} :
    Derives .chain ts ↔ ∃ a links, Spells ts a links := by
  constructor
  · intro h
    obtain ⟨us, vs, rfl, hus, hvs⟩ := derives_seq.1 h
    obtain ⟨a, ha⟩ := exists_closed hus
    obtain ⟨links, hlinks⟩ := exists_linked hvs
    exact ⟨a, links, us, vs, rfl, ha, hlinks⟩
  · rintro ⟨a, links, us, vs, rfl, ha, hlinks⟩
    exact .seq ha.derives hlinks.derives

theorem Linked.split {ts : List Token} {l r : List Chain.Link} (h : Linked ts (l ++ r)) :
    ∃ us vs, ts = us ++ vs ∧ Linked us l ∧ Linked vs r := by
  induction l generalizing ts with
  | nil => exact ⟨[], ts, rfl, .nil, h⟩
  | cons x l ih =>
    cases h with
    | cons hc hb rest =>
      obtain ⟨us, vs, rfl, hus, hvs⟩ := ih rest
      exact ⟨_, vs, by simp, .cons hc hb hus, hvs⟩

theorem Linked.ahead_ne {ts : List Token} {links : List Chain.Link} (h : Linked ts links)
    {next : Lexeme} (hnext : next ≠ .mark .openParen) : ahead ts next ≠ .mark .openParen := by
  cases h with
  | nil => exact hnext
  | cons hc =>
    intro ht
    rw [ahead] at ht
    rw [ht] at hc
    cases hc

/-- Climbing: links that bind tighter than the level, and not less than what comes after them, are
put together to the tree of their chain before the rest is read. -/
theorem Linked.reads {a e : Node} {links : List Chain.Link} {level : Nat} {ts us : List Token}
    {next : Lexeme} (hlinks : Linked ts links) (hlevel : ∀ x ∈ links, level < x.precedence)
    (hparen : ahead us next ≠ .mark .openParen)
    (hnext : ∀ c, Parser.connective? (ahead us next) = some c →
      ∀ x ∈ links, c.precedence ≤ x.precedence)
    (h : Reads (.chain (Chain.tree a links) level) us next e) :
    Reads (.chain a level) (ts ++ us) next e := by
  induction hlen : links.length using Nat.strongRecOn generalizing a e links level ts us next with
  | ind n ih =>
    cases hcut : Chain.cut links with
    | none =>
      cases Chain.cut_eq_none hcut
      cases hlinks
      rwa [Chain.tree_nil] at h
    | some cut =>
      obtain ⟨l, x, r⟩ := cut
      obtain ⟨rfl, hl, hr⟩ := Chain.cut_eq_some hcut
      obtain ⟨ts, vs, rfl, hts, hvs⟩ := hlinks.split
      rw [List.length_append, List.length_cons] at hlen
      cases hvs with
      | @cons t c ws vs b _ hc hb hvs =>
        have hfirst : Reads .operand ws (ahead (vs ++ us) next) b := by
          have hne := hvs.ahead_ne hparen
          rw [← ahead_append] at hne
          simpa using hb.reads (.callsEnd hne)
        have hrest : Reads (.chain b c.precedence) (vs ++ []) (ahead us next) (Chain.tree b r) := by
          have hend : Reads (.chain (Chain.tree b r) c.precedence) [] (ahead us next) _ :=
            .chainEnd fun c' hc' => hnext c' hc' ⟨c, b⟩ (by simp)
          refine ih r.length (by omega) hvs hr hparen (fun c' hc' y hy => ?_) hend rfl
          exact hnext c' hc' y (by simp [hy])
        rw [List.append_nil] at hrest
        rw [Chain.tree_of_cut hcut, ← Chain.pos_tree a l, ← Chain.combine_eq_join] at h
        have hmore : Reads (.chain (Chain.tree a l) level) (t :: (ws ++ (vs ++ us))) next e :=
          .chainMore hc (hlevel ⟨c, b⟩ (by simp)) hfirst hrest h
        rw [← List.append_assoc ws, ← List.cons_append] at hmore
        rw [List.append_assoc]
        refine ih l.length (by omega) hts (fun y hy => hlevel y (by simp [hy])) ?_ ?_ hmore rfl
        · exact (Linked.cons hc hb .nil).ahead_ne hparen
        · intro c' hc'
          cases hc.symm.trans hc'
          exact hl

theorem Linked.precedence_pos {ts : List Token} {links : List Chain.Link} (h : Linked ts links) :
    ∀ x ∈ links, 0 < x.precedence := by
  induction h with
  | nil => exact List.forall_mem_nil _
  | cons hc _ _ ih => exact List.forall_mem_cons.2 ⟨Mycel.precedence_pos hc, ih⟩

theorem Spells.reads {ts : List Token} {a : Node} {links : List Chain.Link}
    (h : Spells ts a links) :
    Reads (.item .expression) ts .endOfInput (Chain.tree a links) := by
  obtain ⟨us, vs, rfl, ha, hlinks⟩ := h
  have hahead : ahead vs .endOfInput ≠ .mark .openParen := hlinks.ahead_ne nofun
  have hfirst := ha.reads (.callsEnd hahead)
  have hrest : Reads (.chain a 0) (vs ++ []) .endOfInput (Chain.tree a links) :=
    hlinks.reads hlinks.precedence_pos nofun nofun (.chainEnd nofun)
  rw [List.append_nil] at hfirst hrest
  exact .expression hfirst hrest

/-- A source that is a chain of closed operands is one expression, the tree of the chain. -/
theorem Program.parse_chain {source : Text} {ts : List Token}
    (hscans : (Cursor.ofSource source).Scans ts) :
    (Derives .chain ts ↔ ∃ a links, Spells ts a links) ∧ ∀ a links, Spells ts a links →
      ∃ p, Program.parse source = .ok p ∧ p.body = [Chain.tree a links] := by
  refine ⟨derives_chain_iff, fun a links h => ?_⟩
  obtain ⟨pos, hts⟩ := Stream.ofSource_eq_iff.2 hscans
  exact ⟨⟨firstPos pos ts, [Chain.tree a links]⟩,
    parse_eq_ok_iff.2 ⟨ts, pos, hts, .last h.reads, rfl⟩, rfl⟩

theorem means_leaf {t : Token} {e : Node} (h : leaf? t = some e) : Means [t] e := by
  have hoperand : Reads .operand [t] .endOfInput e := .operand (.leaf h) (.callsEnd nofun)
  have hrest : Reads (.chain e 0) [] .endOfInput e := .chainEnd nofun
  exact means_iff.2 (.expression hoperand hrest)

/-- The tokens of `a = b - f(c) - d`. -/
def differences : List Token :=
  [⟨.identifier (bytes "a"), ⟨1, 1⟩⟩, ⟨.operator (bytes "="), ⟨1, 3⟩⟩,
    ⟨.identifier (bytes "b"), ⟨1, 5⟩⟩, ⟨.operator (bytes "-"), ⟨1, 7⟩⟩,
    ⟨.identifier (bytes "f"), ⟨1, 9⟩⟩, ⟨.mark .openParen, ⟨1, 10⟩⟩,
    ⟨.identifier (bytes "c"), ⟨1, 11⟩⟩, ⟨.mark .closeParen, ⟨1, 12⟩⟩,
    ⟨.operator (bytes "-"), ⟨1, 14⟩⟩, ⟨.identifier (bytes "d"), ⟨1, 16⟩⟩]

theorem spells_differences : Spells differences (.identifier ⟨1, 1⟩ (bytes "a"))
    [⟨.assign, .identifier ⟨1, 5⟩ (bytes "b")⟩,
      ⟨.operator .sub, .call ⟨1, 9⟩ (.identifier ⟨1, 9⟩ (bytes "f"))
        [.identifier ⟨1, 11⟩ (bytes "c")]⟩,
      ⟨.operator .sub, .identifier ⟨1, 16⟩ (bytes "d")⟩] := by
  have hcall := Closed.call (t := ⟨.mark .openParen, ⟨1, 10⟩⟩) (u := ⟨.mark .closeParen, ⟨1, 12⟩⟩)
    (.leaf (t := ⟨.identifier (bytes "f"), ⟨1, 9⟩⟩) rfl) rfl
    (.last (means_leaf (t := ⟨.identifier (bytes "c"), ⟨1, 11⟩⟩) rfl)) rfl
  refine ⟨[_], _, rfl, .leaf rfl, .cons (by decide) (.leaf rfl) ?_⟩
  exact .cons (by decide) hcall (.cons (by decide) (.leaf rfl) .nil)

theorem parse_differences : ∃ p, Program.parse (bytes "a = b - f(c) - d") = .ok p ∧ p.body =
    [.assign ⟨1, 1⟩ (.identifier ⟨1, 1⟩ (bytes "a")) (.binary ⟨1, 5⟩ .sub
      (.binary ⟨1, 5⟩ .sub (.identifier ⟨1, 5⟩ (bytes "b"))
        (.call ⟨1, 9⟩ (.identifier ⟨1, 9⟩ (bytes "f")) [.identifier ⟨1, 11⟩ (bytes "c")]))
      (.identifier ⟨1, 16⟩ (bytes "d")))] := by
  have hscans : (Cursor.ofSource (bytes "a = b - f(c) - d")).Scans differences :=
    Stream.ofSource_eq_iff.1 ⟨⟨1, 17⟩, by decide +kernel⟩
  have h := (Program.parse_chain hscans).2 _ _ spells_differences
  simpa [Chain.tree, Chain.cut, Chain.Link.precedence, Connective.precedence, Chain.join, Node.pos]
    using h

end Mycel
