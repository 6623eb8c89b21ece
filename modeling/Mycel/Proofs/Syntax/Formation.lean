import Mycel.Proofs.Syntax.Printing
import Mycel.Proofs.Syntax.Scoping
import Mycel.Proofs.Token.Placement

/-!
# The shape and the order of parsed trees

What may be missing in a parsed tree, which operators and names it can have, and how short its
sequences can be, is said of each node by itself (`Node.Shaped`). Every node has the position of a
token, and no node stands before the node that it is a part of. All of this is shown together, of
what each function of the parser reads (`Reads.formed`): positions are passed on through
parentheses, blocks with a single expression and the nodes that a `let` with a name stands for, so
that neither the shape nor the order can be had alone.
-/

namespace Mycel

/-! ## The order of positions -/

/-- A line further up comes first, and in one line the lesser column. -/
instance : LE Pos := ⟨fun p q => p.line < q.line ∨ p.line = q.line ∧ p.column ≤ q.column⟩

namespace Pos

theorem le_iff {p q : Pos} : p ≤ q ↔ p.line < q.line ∨ p.line = q.line ∧ p.column ≤ q.column :=
  Iff.rfl

theorem le_refl (p : Pos) : p ≤ p := .inr ⟨rfl, Int.le_refl _⟩

theorem le_trans {p q r : Pos} (h : p ≤ q) (h' : q ≤ r) : p ≤ r := by
  rw [le_iff] at *
  omega

theorem Precedes.le {p q : Pos} (h : p.Precedes q) : p ≤ q := by
  rw [le_iff]
  unfold Precedes at h
  omega

end Pos

/-! ## Trees -/

namespace Node

/-- Only what may be missing is missing, the operator is one that two values have, a sequence has at
least two parts, and names are names. -/
def Shaped : Node → Prop
  | number _ _ | string _ _ | bool _ _ => True
  | identifier _ x => x.IsName
  | assign _ target value => target.isPresent ∧ value.isPresent
  | binary _ o left right => o ∈ printedOperators ∧ left.isPresent ∧ right.isPresent
  | branch _ condition whenTrue whenFalse =>
    condition.isPresent ∧ (whenTrue.isPresent ∨ whenFalse.isPresent)
  | lambda _ name params body =>
    (∀ x ∈ name, x.IsName) ∧ (∀ x ∈ params, x.IsName) ∧ body.isPresent
  | program _ body => 2 ≤ body.length ∧ ∀ e ∈ body, e.isPresent
  | call _ callee args => callee.isPresent ∧ ∀ a ∈ args, a.isPresent
  | binding _ bindings body => (∀ b ∈ bindings, b.1.IsName) ∧ body.isPresent
  | missing => False

/-- A node is there somewhere in a tree. -/
def Contains (root d : Node) : Prop := ∃ σ, root.Occurs σ d

theorem Contains.trans {root d c : Node} (h : root.Contains d) (hc : d.Contains c) :
    root.Contains c := by
  obtain ⟨σ, hσ⟩ := h
  obtain ⟨τ, hτ⟩ := hc
  induction hτ with
  | here => exact ⟨σ, hσ⟩
  | inside _ hchild hpresent ih =>
    obtain ⟨τ', hparent⟩ := ih
    exact ⟨_, hparent.inside hchild hpresent⟩

/-- Every node of the tree has its shape and its place, and its parts stand where it stands or
further on. -/
def Formed (places : Pos → Prop) (e : Node) : Prop :=
  ∀ d, e.Contains d → d.Shaped ∧ places d.pos ∧
    ∀ added c, d.Child added c → c.isPresent = true → d.pos ≤ c.pos

variable {places : Pos → Prop} {e : Node}

theorem Formed.of_parts (hshaped : e.Shaped) (hpos : places e.pos)
    (h : ∀ added c, e.Child added c → c.isPresent = true → c.Formed places ∧ e.pos ≤ c.pos) :
    e.Formed places := by
  rintro d ⟨σ, hσ⟩
  rcases hσ.cases_parts with ⟨-, rfl⟩ | ⟨added, c, τ, hc, hpresent, hoccurs, -⟩
  · exact ⟨hshaped, hpos, fun added c hc hpresent => (h added c hc hpresent).2⟩
  · exact (h added c hc hpresent).1 d ⟨τ, hoccurs⟩

theorem Formed.root (h : e.Formed places) : e.Shaped ∧ places e.pos := by
  obtain ⟨hshaped, hpos, -⟩ := h e ⟨[], .here⟩
  exact ⟨hshaped, hpos⟩

theorem Shaped.isPresent (h : e.Shaped) : e.isPresent = true := by
  cases e with
  | missing => exact h.elim
  | _ => rfl

theorem Formed.isPresent (h : e.Formed places) : e.isPresent = true := h.root.1.isPresent

/-- Nothing in a tree stands before the tree. -/
theorem pos_le_of_contains {d : Node} (h : e.Contains d)
    (hparts : ∀ c, e.Contains c → ∀ added c', c.Child added c' → c'.isPresent = true →
      c.pos ≤ c'.pos) : e.pos ≤ d.pos := by
  obtain ⟨σ, hσ⟩ := h
  induction hσ with
  | here => exact Pos.le_refl _
  | inside hparent hc hpresent ih =>
    exact Pos.le_trans ih (hparts _ ⟨_, hparent⟩ _ _ hc hpresent)

end Node

/-! ## Tokens in order -/

/-- Tokens one after another, at places, whose identifiers are names. -/
structure TokensIn (places : Pos → Prop) (ts : List Token) : Prop where
  sorted : ts.Pairwise fun t u => t.pos.Precedes u.pos
  placed : ∀ t ∈ ts, places t.pos
  named : ∀ t ∈ ts, ∀ x, t.lexeme = .identifier x → x.IsName

namespace TokensIn

variable {places : Pos → Prop} {t : Token} {ts us : List Token}

theorem append (h : TokensIn places (ts ++ us)) :
    TokensIn places ts ∧ TokensIn places us ∧ ∀ t ∈ ts, ∀ u ∈ us, t.pos ≤ u.pos := by
  obtain ⟨hsorted, hplaced, hnamed⟩ := h
  obtain ⟨hts, hus, hbetween⟩ := List.pairwise_append.1 hsorted
  rw [List.forall_mem_append] at hplaced hnamed
  exact ⟨⟨hts, hplaced.1, hnamed.1⟩, ⟨hus, hplaced.2, hnamed.2⟩, fun t ht u hu =>
    (hbetween t ht u hu).le⟩

theorem cons (h : TokensIn places (t :: ts)) :
    places t.pos ∧ (∀ u ∈ ts, t.pos ≤ u.pos) ∧ TokensIn places ts := by
  have h : TokensIn places ([t] ++ ts) := h
  obtain ⟨hfirst, hrest, hbetween⟩ := h.append
  exact ⟨hfirst.placed t (List.mem_singleton_self t),
    hbetween t (List.mem_singleton_self t), hrest⟩

theorem of_name {x : Text} {pos : Pos} (h : TokensIn places (⟨.identifier x, pos⟩ :: ts)) :
    x.IsName :=
  h.named _ List.mem_cons_self x rfl

theorem of_readsName {names : List Token} {f : Option Text} (h : TokensIn places names)
    (hf : ReadsName names f) : ∀ x ∈ f, x.IsName := by
  cases hf with
  | none => exact nofun
  | some name pos =>
    rintro x ⟨⟩
    exact h.of_name

end TokensIn

/-! ## What the parser makes -/

/-- A tree that is formed, at the position of one of the tokens. -/
def Node.FormedFrom (places : Pos → Prop) (ts : List Token) (e : Node) : Prop :=
  e.Formed places ∧ ∃ t ∈ ts, t.pos = e.pos

/-- A tree that is formed, at a position that is given. -/
def Node.FormedAt (places : Pos → Prop) (pos : Pos) (e : Node) : Prop :=
  e.Formed places ∧ e.pos = pos

def Item.Formed (places : Pos → Prop) (ts : List Token) : (i : Item) → i.Result → Prop
  | .expression, e => Node.FormedFrom places ts e
  | .name, x => Text.IsName x
  | .definition, (x, d) => x.IsName ∧ (d.isPresent = true → Node.FormedFrom places ts d)

/-- What the parser makes of a goal is formed, if what it starts from is and stands before the
tokens. -/
def Goal.Formed (places : Pos → Prop) (ts : List Token) : (g : Goal) → g.Result → Prop
  | .item i, x => i.Formed places ts x
  | .items i _ _, xs => ∀ x : i.Result, x ∈ (show List i.Result from xs) → i.Formed places ts x
  | .chain left _, e | .calls left, e =>
    left.Formed places → (∀ t ∈ ts, left.pos ≤ t.pos) → Node.FormedAt places left.pos e
  | .operand, e | .primary, e => Node.FormedFrom places ts e
  | .conditional pos, e =>
    places pos → (∀ t ∈ ts, pos ≤ t.pos) → Node.FormedAt places pos e

section

variable {places : Pos → Prop} {ts us : List Token} {pos : Pos}

theorem Node.FormedFrom.mono {e : Node} (h : e.FormedFrom places ts) (hts : ts ⊆ us) :
    e.FormedFrom places us := by
  obtain ⟨hformed, t, ht, hpos⟩ := h
  exact ⟨hformed, t, hts ht, hpos⟩

theorem Item.Formed.mono {i : Item} {x : i.Result} (h : i.Formed places ts x) (hts : ts ⊆ us) :
    i.Formed places us x := by
  cases i with
  | expression => exact Node.FormedFrom.mono h hts
  | name => exact h
  | definition => exact ⟨h.1, fun hpresent => (h.2 hpresent).mono hts⟩

/-- A tree from tokens stands where all of them are, or further on. -/
theorem Node.FormedFrom.le {e : Node} (h : e.FormedFrom places ts) (hpos : ∀ t ∈ ts, pos ≤ t.pos) :
    pos ≤ e.pos := by
  obtain ⟨-, t, ht, heq⟩ := h
  exact heq ▸ hpos t ht

/-- What comes after a tree stands further on. -/
theorem Node.FormedFrom.before {e : Node} (h : e.FormedFrom places ts)
    (hbetween : ∀ t ∈ ts, ∀ u ∈ us, t.pos ≤ u.pos) : ∀ u ∈ us, e.pos ≤ u.pos := by
  obtain ⟨-, t, ht, heq⟩ := h
  exact fun u hu => heq ▸ hbetween t ht u hu

theorem Node.FormedFrom.at {e e' : Node} (h : e.FormedFrom places ts)
    (he' : e'.FormedAt places e.pos) (hts : ts ⊆ us) : e'.FormedFrom places us := by
  obtain ⟨-, t, ht, heq⟩ := h
  exact ⟨he'.1, t, hts ht, heq.trans he'.2.symm⟩

theorem operator_of_connective {l : Lexeme} {o : Operator}
    (h : Parser.connective? l = some (.operator o)) : o ∈ Node.printedOperators := by
  have hall : ∀ c ∈ Connective.all, ∀ o, c = .operator o → o ∈ Node.printedOperators := by
    simp [Connective.all, Node.printedOperators]
  exact hall _ (mem_of_connective h) o rfl

theorem formed_combine {l : Lexeme} {c : Connective} (hc : Parser.connective? l = some c)
    {left right : Node} (hleft : left.Formed places) (hright : right.Formed places)
    (hle : left.pos ≤ right.pos) : (Parser.combine c left right).FormedAt places left.pos := by
  have hpos := hleft.root.2
  cases c with
  | assign =>
    refine ⟨.of_parts ⟨hleft.isPresent, hright.isPresent⟩ hpos fun _ _ hc _ => ?_, rfl⟩
    cases hc with
    | target => exact ⟨hleft, Pos.le_refl _⟩
    | value => exact ⟨hright, hle⟩
  | operator o =>
    refine ⟨.of_parts ⟨operator_of_connective hc, hleft.isPresent, hright.isPresent⟩ hpos
      fun _ _ hc _ => ?_, rfl⟩
    cases hc with
    | left => exact ⟨hleft, Pos.le_refl _⟩
    | right => exact ⟨hright, hle⟩
  | or =>
    refine ⟨.of_parts ⟨hleft.isPresent, .inr hright.isPresent⟩ hpos fun _ _ hc hpresent => ?_, rfl⟩
    cases hc with
    | condition => exact ⟨hleft, Pos.le_refl _⟩
    | whenTrue => cases hpresent
    | whenFalse => exact ⟨hright, hle⟩
  | and =>
    refine ⟨.of_parts ⟨hleft.isPresent, .inl hright.isPresent⟩ hpos fun _ _ hc hpresent => ?_, rfl⟩
    cases hc with
    | condition => exact ⟨hleft, Pos.le_refl _⟩
    | whenTrue => exact ⟨hright, hle⟩
    | whenFalse => cases hpresent

theorem formed_call {callee : Node} {args : List Node} (hcallee : callee.Formed places)
    (hargs : ∀ a ∈ args, a.Formed places ∧ callee.pos ≤ a.pos) :
    (Node.call callee.pos callee args).FormedAt places callee.pos := by
  refine ⟨.of_parts ⟨hcallee.isPresent, fun a ha => (hargs a ha).1.isPresent⟩ hcallee.root.2
    fun _ _ hc _ => ?_, rfl⟩
  cases hc with
  | callee => exact ⟨hcallee, Pos.le_refl _⟩
  | argument ha => exact hargs _ ha

theorem formed_bool (hpos : places pos) (b : Bool) : (Node.bool pos b).Formed places :=
  .of_parts trivial hpos nofun

theorem formed_leaf {t : Token} {e : Node} (h : leaf? t = some e)
    (hts : TokensIn places [t]) : e.FormedAt places t.pos := by
  have hplace := hts.placed t (List.mem_singleton_self t)
  have hnamed := hts.named t (List.mem_singleton_self t)
  unfold leaf? at h
  split at h <;> cases h
  · exact ⟨formed_bool hplace true, rfl⟩
  · exact ⟨formed_bool hplace false, rfl⟩
  · rename_i x hx
    exact ⟨.of_parts (hnamed x hx) hplace nofun, rfl⟩
  · exact ⟨.of_parts trivial hplace nofun, rfl⟩
  · exact ⟨.of_parts trivial hplace nofun, rfl⟩

theorem formed_block {t : Token} (hplace : places t.pos) (hts : ∀ u ∈ ts, t.pos ≤ u.pos)
    {body : List Node} (hbody : ∀ e ∈ body, e.FormedFrom places ts) :
    (Parser.block t.pos body).FormedFrom places (t :: ts) := by
  match body with
  | [] => exact ⟨formed_bool hplace false, t, List.mem_cons_self, rfl⟩
  | [e] => exact (hbody e (List.mem_singleton_self e)).mono (List.subset_cons_self t ts)
  | e :: e' :: es =>
    refine ⟨.of_parts ⟨by simp, fun e he => (hbody e he).1.isPresent⟩ hplace fun _ _ hc _ => ?_,
      t, List.mem_cons_self, rfl⟩
    cases hc with
    | statement he => exact ⟨(hbody _ he).1, (hbody _ he).le hts⟩

theorem formed_lambda {name : Option Text} {params : List Text} {body : Node} (hpos : places pos)
    (hname : ∀ x ∈ name, x.IsName) (hparams : ∀ x ∈ params, x.IsName) (hbody : body.Formed places)
    (hle : pos ≤ body.pos) : (Node.lambda pos name params body).Formed places := by
  refine .of_parts ⟨hname, hparams, hbody.isPresent⟩ hpos fun _ _ hc _ => ?_
  cases hc
  exact ⟨hbody, hle⟩

/-- A `let`. With a name, the lambda and the missing definitions stand where the `let` stands. -/
theorem formed_binding {name : Option Text} {bindings : List (Text × Node)} {body : Node}
    (hpos : places pos) (hname : ∀ x ∈ name, x.IsName) (hnames : ∀ b ∈ bindings, b.1.IsName)
    (hdefinitions : ∀ b ∈ bindings, b.2.isPresent = true → b.2.Formed places ∧ pos ≤ b.2.pos)
    (hbody : body.Formed places) (hle : pos ≤ body.pos) :
    (Parser.binding pos name bindings body).FormedAt places pos := by
  cases name with
  | none =>
    refine ⟨.of_parts ⟨hnames, hbody.isPresent⟩ hpos fun _ _ hc hpresent => ?_, rfl⟩
    cases hc with
    | definition hd => exact hdefinitions _ (List.mem_of_getElem? hd) hpresent
    | letBody => exact ⟨hbody, hle⟩
  | some f =>
    have hparams : ∀ x ∈ bindings.map (·.1), x.IsName := List.forall_mem_map.2 hnames
    refine formed_call (formed_lambda hpos hname hparams hbody hle) fun a ha => ?_
    obtain ⟨⟨x, d⟩, hb, rfl⟩ := List.mem_map.1 ha
    show Node.Formed places (if d.isPresent then d else .bool pos false) ∧
      pos ≤ (if d.isPresent then d else .bool pos false).pos
    by_cases hd : d.isPresent = true
    · rw [if_pos hd]
      exact hdefinitions _ hb hd
    · rw [if_neg hd]
      exact ⟨formed_bool hpos false, Pos.le_refl pos⟩

/-- A conditional. Only its second branch may be missing. -/
theorem formed_branch {condition whenTrue whenFalse : Node} (hpos : places pos)
    (hcondition : condition.Formed places ∧ pos ≤ condition.pos)
    (htrue : whenTrue.Formed places ∧ pos ≤ whenTrue.pos)
    (hfalse : whenFalse.isPresent = true → whenFalse.Formed places ∧ pos ≤ whenFalse.pos) :
    (Node.branch pos condition whenTrue whenFalse).FormedAt places pos := by
  refine ⟨.of_parts ⟨hcondition.1.isPresent, .inl htrue.1.isPresent⟩ hpos
    fun _ _ hc hpresent => ?_, rfl⟩
  cases hc with
  | condition => exact hcondition
  | whenTrue => exact htrue
  | whenFalse => exact hfalse hpresent

end

/-- What the parser makes of tokens in order is formed. -/
theorem Reads.formed {places : Pos → Prop} {g : Goal} {ts : List Token} {next : Lexeme}
    {r : g.Result} (h : Reads g ts next r) (hts : TokensIn places ts) : g.Formed places ts r := by
  induction h with
  | expression _ _ ih ih' | operand _ _ ih ih' =>
    obtain ⟨hfirst, hrest, hbetween⟩ := hts.append
    have hformed := ih hfirst
    exact hformed.at (ih' hrest hformed.1 (hformed.before hbetween)) (List.subset_append_left _ _)
  | chainEnd _ | callsEnd _ => exact fun hleft _ => ⟨hleft, rfl⟩
  | chainMore hc _ _ _ _ ih ih' ih'' =>
    intro hleft hafter
    obtain ⟨-, -, hts⟩ := hts.cons
    obtain ⟨hfirst, hts, hbetween⟩ := hts.append
    obtain ⟨hrest, hmore, -⟩ := hts.append
    simp only [List.forall_mem_cons, List.forall_mem_append] at hafter
    have hoperand := ih hfirst
    have hright := ih' hrest hoperand.1
      (hoperand.before fun t ht u hu => hbetween t ht u (List.mem_append_left _ hu))
    have hle := (hoperand.at hright (List.Subset.refl _)).le hafter.2.1
    have hcombined := formed_combine hc hleft hright.1 hle
    have hchain := ih'' hmore hcombined.1 (hcombined.2.symm ▸ hafter.2.2.2)
    exact ⟨hchain.1, hchain.2.trans hcombined.2⟩
  | callsMore _ _ _ ih ih' =>
    intro hcallee hafter
    obtain ⟨-, -, hts⟩ := hts.cons
    obtain ⟨hlist, hmore, -⟩ := hts.append
    simp only [List.forall_mem_cons, List.forall_mem_append] at hafter
    have hcall := formed_call hcallee fun a ha =>
      ⟨(ih hlist a ha).1, (ih hlist a ha).le hafter.2.1⟩
    exact ih' hmore hcall.1 hafter.2.2
  | leaf h =>
    have hleaf := formed_leaf h hts
    exact ⟨hleaf.1, _, List.mem_singleton_self _, hleaf.2.symm⟩
  | paren _ _ _ ih =>
    obtain ⟨-, -, hts⟩ := hts.cons
    exact Node.FormedFrom.mono (ih hts.append.1) fun t ht =>
      List.mem_cons_of_mem _ (List.mem_append_left _ ht)
  | block _ _ ih =>
    obtain ⟨hplace, hafter, hts⟩ := hts.cons
    exact formed_block hplace hafter (ih hts)
  | ifWord _ _ ih =>
    obtain ⟨hplace, hafter, hts⟩ := hts.cons
    have hbranch := ih hts hplace hafter
    exact ⟨hbranch.1, _, List.mem_cons_self, hbranch.2.symm⟩
  | lambdaWord _ hf _ _ _ ih ih' =>
    obtain ⟨hplace, hafter, hts⟩ := hts.cons
    obtain ⟨hnames, hts, -⟩ := hts.append
    obtain ⟨hlist, hbody, -⟩ := hts.cons.2.2.append
    simp only [List.forall_mem_cons, List.forall_mem_append] at hafter
    have hformed := ih' hbody
    exact ⟨formed_lambda hplace (hnames.of_readsName hf) (ih hlist) hformed.1
      (hformed.le hafter.2.2.2), _, List.mem_cons_self, rfl⟩
  | letWord _ hf _ _ _ ih ih' =>
    obtain ⟨hplace, hafter, hts⟩ := hts.cons
    obtain ⟨hnames, hts, -⟩ := hts.append
    obtain ⟨hlist, hbody, -⟩ := hts.cons.2.2.append
    simp only [List.forall_mem_cons, List.forall_mem_append] at hafter
    have hdefinitions := ih hlist
    have hformed := ih' hbody
    have hbinding := formed_binding hplace (hnames.of_readsName hf)
      (fun b hb => (hdefinitions b hb).1)
      (fun b hb hpresent => ⟨((hdefinitions b hb).2 hpresent).1,
        ((hdefinitions b hb).2 hpresent).le hafter.2.2.1⟩)
      hformed.1 (hformed.le hafter.2.2.2)
    exact ⟨hbinding.1, _, List.mem_cons_self, hbinding.2.symm⟩
  | withoutElse _ _ _ _ ih ih' =>
    intro hplace hafter
    obtain ⟨hfirst, hts, -⟩ := hts.append
    simp only [List.forall_mem_append] at hafter
    have hcondition := ih hfirst
    have htrue := ih' hts.append.2.1
    exact formed_branch hplace ⟨hcondition.1, hcondition.le hafter.1⟩
      ⟨htrue.1, htrue.le hafter.2.2⟩ nofun
  | withElse _ _ _ _ _ ih ih' ih'' =>
    intro hplace hafter
    obtain ⟨hfirst, hts, -⟩ := hts.append
    obtain ⟨hbranch, hrest, -⟩ := hts.append.2.1.append
    simp only [List.forall_mem_cons, List.forall_mem_append] at hafter
    have hcondition := ih hfirst
    have htrue := ih' hbranch
    have hfalse := ih'' hrest.cons.2.2
    exact formed_branch hplace ⟨hcondition.1, hcondition.le hafter.1⟩
      ⟨htrue.1, htrue.le hafter.2.2.1⟩ fun _ => ⟨hfalse.1, hfalse.le hafter.2.2.2.2⟩
  | name => exact hts.of_name
  | undefined _ => exact ⟨hts.of_name, nofun⟩
  | defined _ _ ih =>
    have hformed := ih hts.cons.2.2.cons.2.2
    exact ⟨hts.of_name, fun _ => Node.FormedFrom.mono hformed fun t ht =>
      List.mem_cons_of_mem _ (List.mem_cons_of_mem _ ht)⟩
  | close _ | trailing _ _ => exact List.forall_mem_nil _
  | itemFirst _ _ ih ih' =>
    obtain ⟨hfirst, hrest, -⟩ := hts.append
    exact List.forall_mem_cons.2 ⟨(ih hfirst).mono (List.subset_append_left _ _),
      fun x hx => (ih' hrest x hx).mono (List.subset_append_right _ _)⟩
  | itemNext _ _ _ ih ih' =>
    obtain ⟨-, -, hts⟩ := hts.cons
    obtain ⟨hfirst, hrest, -⟩ := hts.append
    exact List.forall_mem_cons.2
      ⟨(ih hfirst).mono fun t ht => List.mem_cons_of_mem _ (List.mem_append_left _ ht),
        fun x hx => (ih' hrest x hx).mono fun t ht =>
          List.mem_cons_of_mem _ (List.mem_append_right _ ht)⟩

theorem ReadsProgram.formed {places : Pos → Prop} {ts : List Token} {es : List Node}
    (h : ReadsProgram ts es) (hts : TokensIn places ts) : ∀ e ∈ es, e.FormedFrom places ts := by
  induction h with
  | nil => exact List.forall_mem_nil _
  | last h => exact List.forall_mem_singleton.2 (h.formed hts)
  | cons h _ _ ih =>
    obtain ⟨hfirst, hrest, -⟩ := hts.append
    have hexpression : Node.FormedFrom places _ _ := h.formed hfirst
    exact List.forall_mem_cons.2 ⟨hexpression.mono (List.subset_append_left _ _), fun e he =>
      (ih hrest.cons.2.2 e he).mono fun t ht =>
        List.mem_append_right _ (List.mem_cons_of_mem _ ht)⟩

/-! ## Parsed programs -/

theorem Cursor.Scans.tokensIn {c : Cursor} {ts : List Token} (h : c.Scans ts) :
    TokensIn (fun pos => ∃ t ∈ ts, t.pos = pos) ts where
  sorted := h.sorted
  placed t ht := ⟨t, ht, rfl⟩
  named t ht x hx := by
    obtain ⟨w, hw⟩ := h.written t ht
    have hspelled := hw.spelledBy
    rw [hx] at hspelled
    cases hspelled with
    | identifier hname => exact hname

theorem firstPos_le {ts : List Token} (pos : Pos)
    (hts : ts.Pairwise fun t u => t.pos.Precedes u.pos) : ∀ t ∈ ts, firstPos pos ts ≤ t.pos := by
  cases ts with
  | nil => exact List.forall_mem_nil _
  | cons t ts =>
    exact List.forall_mem_cons.2 ⟨Pos.le_refl _, fun u hu => ((List.pairwise_cons.1 hts).1 u hu).le⟩

theorem ReadsProgram.nil_iff {ts : List Token} {es : List Node} (h : ReadsProgram ts es) :
    es = [] ↔ ts = [] := by
  cases h with
  | nil => exact ⟨fun _ => rfl, fun _ => rfl⟩
  | last h =>
    obtain ⟨t, ts, rfl, -⟩ := h.opened
    exact ⟨nofun, nofun⟩
  | cons h =>
    obtain ⟨t, ts, rfl, -⟩ := h.opened
    exact ⟨nofun, nofun⟩

/-- A program of some tokens before the end of the input. Only a program without expressions stands
at the end. -/
structure Program.Formed (p : Program) (ts : List Token) (finish : Pos) : Prop where
  empty : p.body = [] → p.pos = finish
  placed : p.body ≠ [] → ∃ t ∈ ts, t.pos = p.pos
  present : ∀ e ∈ p.body, e.isPresent = true
  parts : ∀ e ∈ p.body, ∀ d, e.Contains d → d.Shaped ∧ ∃ t ∈ ts, t.pos = d.pos
  ordered : ∀ e d, p.toNode.Contains e → e.Contains d → e.pos ≤ d.pos

theorem ReadsProgram.formed_program {p : Program} {ts : List Token} {finish : Pos}
    (h : ReadsProgram ts p.body) (hts : TokensIn (fun pos => ∃ t ∈ ts, t.pos = pos) ts)
    (hpos : p.pos = firstPos finish ts) : p.Formed ts finish := by
  have hbody := h.formed hts
  have hinside : ∀ {d}, p.toNode.Contains d → d = p.toNode ∨ ∃ e ∈ p.body, e.Contains d := by
    rintro d ⟨σ, hσ⟩
    rcases hσ.cases_parts with ⟨-, rfl⟩ | ⟨_, e, τ, he, -, hoccurs, -⟩
    · exact .inl rfl
    · cases he with
      | statement he => exact .inr ⟨e, he, τ, hoccurs⟩
  have hfirst : ∀ t ∈ ts, p.pos ≤ t.pos := by
    rw [hpos]
    exact firstPos_le finish hts.sorted
  refine ⟨fun hempty => ?_, fun hne => ?_, fun e he => (hbody e he).1.isPresent, ?_, ?_⟩
  · rw [hpos, h.nil_iff.1 hempty]
    rfl
  · obtain ⟨t, us, rfl⟩ := List.exists_cons_of_ne_nil (mt h.nil_iff.2 hne)
    exact ⟨t, List.mem_cons_self, hpos.symm⟩
  · intro e he d hd
    obtain ⟨hshaped, hplace, -⟩ := (hbody e he).1 d hd
    exact ⟨hshaped, hplace⟩
  · intro e d he hd
    refine Node.pos_le_of_contains hd fun c hc added c' hchild hpresent => ?_
    rcases hinside (he.trans hc) with rfl | ⟨b, hb, hbc⟩
    · cases hchild with
      | statement hmem => exact (hbody c' hmem).le hfirst
    · exact ((hbody b hb).1 c hbc).2.2 added c' hchild hpresent

/-- A parsed program is formed from the tokens of its source. -/
theorem Program.formed_of_parse {source : Text} {p : Program} (h : Program.parse source = .ok p) :
    ∃ ts finish, Stream.ofSource source = .prepend ts (.finish finish) ∧ p.Formed ts finish := by
  obtain ⟨ts, finish, hts, hreads, hpos⟩ := parse_eq_ok_iff.1 h
  have hscans := Stream.ofSource_eq_iff.1 ⟨finish, hts⟩
  exact ⟨ts, finish, hts, hreads.formed_program hscans.tokensIn hpos⟩

/-- A `let` with a name, whose body is a block and a connective, and which has a binding without a
definition. -/
theorem Program.formed_namedLet : ∃ p ts finish,
    Program.parse (bytes "let f (a, b = true) { a; (b) } && x") = .ok p ∧
      Stream.ofSource (bytes "let f (a, b = true) { a; (b) } && x") =
        .prepend ts (.finish finish) ∧ p.Formed ts finish := by
  have hparse : Program.parse (bytes "let f (a, b = true) { a; (b) } && x") = .ok ⟨⟨1, 1⟩, [
      .call ⟨1, 1⟩ (.lambda ⟨1, 1⟩ (some (bytes "f")) [bytes "a", bytes "b"]
        (.branch ⟨1, 21⟩ (.program ⟨1, 21⟩ [.identifier ⟨1, 23⟩ (bytes "a"),
          .identifier ⟨1, 27⟩ (bytes "b")]) (.identifier ⟨1, 35⟩ (bytes "x")) .missing))
        [.bool ⟨1, 1⟩ false, .bool ⟨1, 15⟩ true]]⟩ := rfl
  obtain ⟨ts, finish, hts, hformed⟩ := Program.formed_of_parse hparse
  exact ⟨_, ts, finish, hparse, hts, hformed⟩

end Mycel
