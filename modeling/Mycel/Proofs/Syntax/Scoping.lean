import Mathlib.Data.Finset.Dedup
import Mathlib.Data.Finset.Insert
import Mycel.Proofs.Syntax.Wholeness
import Mycel.Proofs.Token.Positions

/-!
# Static scopes

The static scope of a node is the list of the name sets that are bound around it, the innermost one
first. A lambda adds the set of its parameters to its body, around that the set of its own name if
it has one, and each binding of a `let` adds its name to what comes after it.

A node of a tree is told apart from others by its position only. In a parsed program that is enough:
the nodes at one position all have the same static scope (`Program.scoping_unique`).
-/

namespace Mycel

/-- The names that are bound around a node, the innermost ones first. -/
abbrev Scoping := List (Finset Text)

/-- The place of the nearest set with a name. -/
def Scoping.nearest (σ : Scoping) (name : Text) : Option Nat := σ.findIdx? fun names => name ∈ names

namespace Node

/-- What the first `n` bindings of a `let` add, the last of them innermost. -/
def bound (bindings : List (Text × Node)) (n : Nat) : Scoping :=
  ((bindings.take n).map fun b => {b.1}).reverse

/-- A part of a node, and what the node adds to its scope. -/
inductive Child : Node → Scoping → Node → Prop
  | target {pos : Pos} {target value : Node} : Child (.assign pos target value) [] target
  | value {pos : Pos} {target value : Node} : Child (.assign pos target value) [] value
  | left {pos : Pos} {o : Operator} {left right : Node} : Child (.binary pos o left right) [] left
  | right {pos : Pos} {o : Operator} {left right : Node} : Child (.binary pos o left right) [] right
  | condition {pos : Pos} {condition whenTrue whenFalse : Node} :
      Child (.branch pos condition whenTrue whenFalse) [] condition
  | whenTrue {pos : Pos} {condition whenTrue whenFalse : Node} :
      Child (.branch pos condition whenTrue whenFalse) [] whenTrue
  | whenFalse {pos : Pos} {condition whenTrue whenFalse : Node} :
      Child (.branch pos condition whenTrue whenFalse) [] whenFalse
  | lambdaBody {pos : Pos} {name : Option Text} {params : List Text} {body : Node} :
      Child (.lambda pos name params body) (params.toFinset :: name.toList.map fun n => {n}) body
  | statement {pos : Pos} {body : List Node} {e : Node} (h : e ∈ body) :
      Child (.program pos body) [] e
  | callee {pos : Pos} {callee : Node} {args : List Node} : Child (.call pos callee args) [] callee
  | argument {pos : Pos} {callee : Node} {args : List Node} {e : Node} (h : e ∈ args) :
      Child (.call pos callee args) [] e
  | definition {pos : Pos} {bindings : List (Text × Node)} {body : Node} {n : Nat} {x : Text}
      {d : Node} (h : bindings[n]? = some (x, d)) :
      Child (.binding pos bindings body) (bound bindings n) d
  | letBody {pos : Pos} {bindings : List (Text × Node)} {body : Node} :
      Child (.binding pos bindings body) (bound bindings bindings.length) body

/-- A node occurs in a tree with a static scope. Only what is there occurs. -/
inductive Occurs (root : Node) : Scoping → Node → Prop
  | here : root.Occurs [] root
  | inside {σ added : Scoping} {parent child : Node} (h : root.Occurs σ parent)
      (hc : parent.Child added child) (hpresent : child.isPresent = true) :
      root.Occurs (added ++ σ) child

theorem Whole.isPresent {places : Pos → Prop} {e : Node} (h : e.Whole places) :
    e.isPresent = true := by
  cases h <;> rfl

theorem Whole.child {places : Pos → Prop} {e c : Node} {added : Scoping} (h : e.Whole places)
    (hc : e.Child added c) (hpresent : c.isPresent = true) : c.Whole places := by
  cases h with
  | number | string | bool | identifier => cases hc
  | assign _ htarget hvalue => cases hc <;> assumption
  | binary _ _ hleft hright => cases hc <;> assumption
  | branch hcondition htrue hfalse =>
    cases hc with
    | condition => exact hcondition
    | whenTrue => exact htrue hpresent
    | whenFalse => exact hfalse hpresent
  | lambda hbody =>
    cases hc
    exact hbody
  | program hbody =>
    cases hc with
    | statement he => exact hbody _ he
  | call _ hcallee hargs =>
    cases hc with
    | callee => exact hcallee
    | argument he => exact hargs _ he
  | binding hbindings hbody =>
    cases hc with
    | definition hd => exact hbindings _ (List.mem_of_getElem? hd) hpresent
    | letBody => exact hbody

theorem Whole.occurs {places : Pos → Prop} {root e : Node} {σ : Scoping} (h : root.Whole places)
    (he : root.Occurs σ e) : e.Whole places := by
  induction he with
  | here => exact h
  | inside _ hc hpresent ih => exact ih.child hc hpresent

/-- What occurs in a node is the node itself, or it occurs in a part of it. -/
theorem Occurs.cases_parts {e d : Node} {τ : Scoping} (h : e.Occurs τ d) :
    (τ = [] ∧ d = e) ∨ ∃ added c σ, e.Child added c ∧ c.isPresent = true ∧ c.Occurs σ d ∧
      τ = σ ++ added := by
  induction h with
  | here => exact .inl ⟨rfl, rfl⟩
  | @inside σ added parent child _ hc hpresent ih =>
    refine .inr ?_
    rcases ih with ⟨rfl, rfl⟩ | ⟨a, c, σ', hchild, hc', hoccurs, rfl⟩
    · exact ⟨added, child, [], hc, hpresent, .here, List.append_nil _⟩
    · exact ⟨a, c, added ++ σ', hchild, hc', hoccurs.inside hc hpresent,
        (List.append_assoc ..).symm⟩

/-! ## The bindings of a `let`, one after another -/

/-- The rest of a `let`: each definition occurs in the scope of what is bound before it, and the
body in the scope of it all. -/
def OccursLet (root body : Node) : Scoping → List (Text × Node) → Prop
  | σ, [] => root.Occurs σ body
  | σ, (x, d) :: rest =>
    (d.isPresent = true → root.Occurs σ d) ∧ root.OccursLet body ({x} :: σ) rest

theorem bound_succ {bindings : List (Text × Node)} {n : Nat} {x : Text} {d : Node}
    (h : bindings[n]? = some (x, d)) : bound bindings (n + 1) = {x} :: bound bindings n := by
  simp [bound, List.take_add_one, h]

theorem Occurs.rest {root body : Node} {σ : Scoping} {pos : Pos} {bindings : List (Text × Node)}
    (h : root.Occurs σ (.binding pos bindings body)) (hbody : body.isPresent = true)
    (before rest : List (Text × Node)) (hrest : bindings = before ++ rest) :
    root.OccursLet body (bound bindings before.length ++ σ) rest := by
  induction rest generalizing before with
  | nil =>
    rw [List.append_nil] at hrest
    subst hrest
    exact h.inside .letBody hbody
  | cons b rest ih =>
    obtain ⟨x, d⟩ := b
    have hd : bindings[before.length]? = some (x, d) := by simp [hrest]
    refine ⟨h.inside (.definition hd), ?_⟩
    rw [← List.cons_append, ← bound_succ hd]
    have hmore := ih (before ++ [(x, d)]) (by simp [hrest])
    rwa [List.length_append] at hmore

theorem Occurs.bindings {root body : Node} {σ : Scoping} {pos : Pos}
    {bindings : List (Text × Node)} (h : root.Occurs σ (.binding pos bindings body))
    (hbody : body.isPresent = true) : root.OccursLet body σ bindings :=
  h.rest hbody [] bindings rfl

/-! ## Charts

A chart gives each position a static scope. That a tree has a chart is shown from its parts, which
stand at different positions, so that their charts can be joined.
-/

/-- The nodes of a tree stand at some of the positions `ps`, and `F` gives their static scopes where
the tree itself has the static scope `σ`. -/
def ChartedBy (F : Pos → Scoping) (ps : List Pos) (σ : Scoping) (e : Node) : Prop :=
  ∀ τ d, e.Occurs τ d → d.pos ∈ ps ∧ F d.pos = τ ++ σ

end Node

/-- The chart `F` for the positions `ps`, and the chart `G` for all others. -/
def Scoping.join (ps : List Pos) (F G : Pos → Scoping) (p : Pos) : Scoping :=
  if p ∈ ps then F p else G p

namespace Node.ChartedBy

variable {F G : Pos → Scoping} {ps qs rs : List Pos} {σ : Scoping} {e : Node}

theorem mono (h : e.ChartedBy F ps σ) (hps : ps ⊆ qs) : e.ChartedBy F qs σ := by
  intro τ d hd
  obtain ⟨hpos, hF⟩ := h τ d hd
  exact ⟨hps hpos, hF⟩

theorem shift (h : e.ChartedBy F ps []) (σ : Scoping) :
    e.ChartedBy (fun p => F p ++ σ) ps σ := by
  intro τ d hd
  obtain ⟨hpos, hF⟩ := h τ d hd
  refine ⟨hpos, ?_⟩
  rw [List.append_nil] at hF
  exact congrArg (· ++ σ) hF

theorem joinLeft (h : e.ChartedBy F ps σ) (hps : ps ⊆ rs) :
    e.ChartedBy (Scoping.join ps F G) rs σ := by
  intro τ d hd
  obtain ⟨hpos, hF⟩ := h τ d hd
  refine ⟨hps hpos, ?_⟩
  rw [Scoping.join, if_pos hpos, hF]

theorem joinRight (h : e.ChartedBy G qs σ) (hdisjoint : ps.Disjoint qs) (hqs : qs ⊆ rs) :
    e.ChartedBy (Scoping.join ps F G) rs σ := by
  intro τ d hd
  obtain ⟨hpos, hG⟩ := h τ d hd
  refine ⟨hqs hpos, ?_⟩
  rw [Scoping.join, if_neg fun hmem => hdisjoint hmem hpos, hG]

/-- The tree itself is one of its nodes. -/
theorem root (h : e.ChartedBy F ps σ) : e.pos ∈ ps ∧ F e.pos = σ := h [] e .here

theorem of_parts (hpos : e.pos ∈ ps) (hF : F e.pos = [])
    (h : ∀ added c, e.Child added c → c.isPresent = true → c.ChartedBy F ps added) :
    e.ChartedBy F ps [] := by
  intro τ d hd
  rcases hd.cases_parts with ⟨rfl, rfl⟩ | ⟨added, c, σ, hc, hpresent, hoccurs, rfl⟩
  · exact ⟨hpos, hF⟩
  · rw [List.append_nil]
    exact h added c hc hpresent σ d hoccurs

/-- A node at a position of its own. -/
theorem at_fresh (hpos : e.pos ∉ ps)
    (h : ∀ added c, e.Child added c → c.isPresent = true → c.ChartedBy F ps added) :
    ∃ G : Pos → Scoping, e.ChartedBy G (e.pos :: ps) [] := by
  refine ⟨Scoping.join [e.pos] (fun _ => []) F, of_parts List.mem_cons_self ?_ ?_⟩
  · rw [Scoping.join, if_pos (List.mem_singleton_self _)]
  · intro added c hc hpresent
    have hdisjoint : [e.pos].Disjoint ps := List.singleton_disjoint.2 hpos
    exact (h added c hc hpresent).joinRight hdisjoint (List.subset_cons_self _ _)

end Node.ChartedBy

/-! ## Charts of what the parser makes -/

namespace Item

def ChartedBy (F : Pos → Scoping) (ps : List Pos) (σ : Scoping) : (i : Item) → i.Result → Prop
  | .expression, e => Node.ChartedBy F ps σ e
  | .name, _ => True
  | .definition, (_, d) => d.isPresent = true → Node.ChartedBy F ps σ d

variable {F G : Pos → Scoping} {ps qs rs : List Pos} {σ : Scoping} {i : Item} {x : i.Result}

theorem ChartedBy.shift (h : i.ChartedBy F ps [] x) (σ : Scoping) :
    i.ChartedBy (fun p => F p ++ σ) ps σ x := by
  cases i with
  | expression => exact Node.ChartedBy.shift h σ
  | name => trivial
  | definition => exact fun hpresent => (h hpresent).shift σ

theorem ChartedBy.joinLeft (h : i.ChartedBy F ps σ x) (hps : ps ⊆ rs) :
    i.ChartedBy (Scoping.join ps F G) rs σ x := by
  cases i with
  | expression => exact Node.ChartedBy.joinLeft h hps
  | name => trivial
  | definition => exact fun hpresent => (h hpresent).joinLeft hps

theorem ChartedBy.joinRight (h : i.ChartedBy G qs σ x) (hdisjoint : ps.Disjoint qs)
    (hqs : qs ⊆ rs) : i.ChartedBy (Scoping.join ps F G) rs σ x := by
  cases i with
  | expression => exact Node.ChartedBy.joinRight h hdisjoint hqs
  | name => trivial
  | definition => exact fun hpresent => (h hpresent).joinRight hdisjoint hqs

end Item

/-- What the parser makes of a goal has a chart, if what it starts from has one for other positions.
The items of a list have a common one, whatever is added to the scope of each. -/
def Goal.Charted (ps : List Pos) : (g : Goal) → g.Result → Prop
  | .item i, x => ∃ F, i.ChartedBy F ps [] x
  | .items i _ _, xs => ∀ added : Nat → Scoping, ∃ F, ∀ (n : Nat) (x : i.Result),
      (show List i.Result from xs)[n]? = some x → i.ChartedBy F ps (added n) x
  | .chain left _, e | .calls left, e =>
    ∀ qs F, left.ChartedBy F qs [] → qs.Disjoint ps → ∃ G, Node.ChartedBy G (qs ++ ps) [] e
  | .operand, e | .primary, e => ∃ F, Node.ChartedBy F ps [] e
  | .conditional pos, e => pos ∉ ps → ∃ F, Node.ChartedBy F (pos :: ps) [] e

section

variable {F G : Pos → Scoping} {ps qs : List Pos}

theorem chartedBy_combine (c : Connective) {left right : Node} (hleft : left.ChartedBy F ps [])
    (hright : right.ChartedBy G qs []) (hdisjoint : ps.Disjoint qs) :
    (Parser.combine c left right).ChartedBy (Scoping.join ps F G) (ps ++ qs) [] := by
  have hl : left.ChartedBy (Scoping.join ps F G) (ps ++ qs) [] :=
    hleft.joinLeft (List.subset_append_left _ _)
  have hr : right.ChartedBy (Scoping.join ps F G) (ps ++ qs) [] :=
    hright.joinRight hdisjoint (List.subset_append_right _ _)
  cases c with
  | assign =>
    refine .of_parts hl.root.1 hl.root.2 fun added c hc _ => ?_
    cases hc <;> assumption
  | operator o =>
    refine .of_parts hl.root.1 hl.root.2 fun added c hc _ => ?_
    cases hc <;> assumption
  | or | and =>
    refine .of_parts hl.root.1 hl.root.2 fun added c hc hpresent => ?_
    cases hc <;> first | assumption | cases hpresent

theorem chartedBy_call {callee : Node} {args : List Node} (hcallee : callee.ChartedBy F ps [])
    (hargs : ∀ a ∈ args, a.ChartedBy G qs []) (hdisjoint : ps.Disjoint qs) :
    (Node.call callee.pos callee args).ChartedBy (Scoping.join ps F G) (ps ++ qs) [] := by
  have hc : callee.ChartedBy (Scoping.join ps F G) (ps ++ qs) [] :=
    hcallee.joinLeft (List.subset_append_left _ _)
  refine .of_parts hc.root.1 hc.root.2 fun added c hchild _ => ?_
  cases hchild with
  | callee => exact hc
  | argument ha => exact (hargs _ ha).joinRight hdisjoint (List.subset_append_right _ _)

theorem charted_leaf {t : Token} {e : Node} (h : leaf? t = some e) :
    ∃ F : Pos → Scoping, e.ChartedBy F [t.pos] [] := by
  have hparts : e.pos = t.pos ∧ ∀ added c, ¬ e.Child added c := by
    unfold leaf? at h
    split at h <;> cases h <;> exact ⟨rfl, nofun⟩
  obtain ⟨hpos, hnone⟩ := hparts
  rw [← hpos]
  exact Node.ChartedBy.at_fresh (F := fun _ => []) List.not_mem_nil fun added c hc _ =>
    absurd hc (hnone added c)

theorem charted_block {pos : Pos} {body : List Node} (hpos : pos ∉ ps)
    (hbody : ∀ e ∈ body, e.ChartedBy F ps []) :
    ∃ G : Pos → Scoping, (Parser.block pos body).ChartedBy G (pos :: ps) [] := by
  match body with
  | [] =>
    exact Node.ChartedBy.at_fresh (e := .bool pos false) (F := F) hpos fun _ _ hc _ => nomatch hc
  | [e] =>
    exact ⟨F, (hbody e (List.mem_singleton_self e)).mono (List.subset_cons_self _ _)⟩
  | e :: e' :: es =>
    refine Node.ChartedBy.at_fresh (e := .program pos (e :: e' :: es)) (F := F) hpos
      fun _ _ hc _ => ?_
    cases hc with
    | statement he => exact hbody _ he

theorem charted_lambda {pos : Pos} (name : Option Text) (params : List Text) {body : Node}
    (hpos : pos ∉ ps) (hbody : body.ChartedBy F ps []) :
    ∃ G : Pos → Scoping, (Node.lambda pos name params body).ChartedBy G (pos :: ps) [] := by
  refine Node.ChartedBy.at_fresh (e := .lambda pos name params body) hpos
    (F := fun p => F p ++ params.toFinset :: name.toList.map fun n => {n}) fun _ _ hc _ => ?_
  cases hc
  exact hbody.shift _

/-- A `let`. If it has a name, the nodes that the parser puts at its position are all in the scope
of the `let` itself. -/
theorem charted_binding {pos : Pos} (name : Option Text) {bindings : List (Text × Node)}
    {body : Node} (hpos : pos ∉ ps ∧ pos ∉ qs) (hdisjoint : ps.Disjoint qs)
    (hbindings : ∀ added : Nat → Scoping, ∃ F, ∀ (n : Nat) (x : Text) (d : Node),
      bindings[n]? = some (x, d) → d.isPresent = true → d.ChartedBy F ps (added n))
    (hbody : body.ChartedBy G qs []) :
    ∃ H : Pos → Scoping,
      (Parser.binding pos name bindings body).ChartedBy H (pos :: (ps ++ qs)) [] := by
  cases name with
  | none =>
    obtain ⟨F, hF⟩ := hbindings (Node.bound bindings)
    have hnot : pos ∉ ps ++ qs := by simpa only [List.mem_append, not_or] using hpos
    refine Node.ChartedBy.at_fresh (e := .binding pos bindings body) hnot
      (F := Scoping.join ps F fun p => G p ++ Node.bound bindings bindings.length)
      fun added c hc hpresent => ?_
    cases hc with
    | definition hd => exact (hF _ _ _ hd hpresent).joinLeft (List.subset_append_left _ _)
    | letBody =>
      exact (hbody.shift _).joinRight hdisjoint (List.subset_append_right _ _)
  | some f =>
    obtain ⟨F, hF⟩ := hbindings fun _ => []
    obtain ⟨G', hlambda⟩ := charted_lambda (some f) (bindings.map (·.1)) hpos.2 hbody
    have hdisjoint' : (pos :: qs).Disjoint ps := List.disjoint_cons_left.2 ⟨hpos.1, hdisjoint.symm⟩
    have hcallee := hlambda.joinLeft (G := F) (List.subset_append_left _ ps)
    have hcall : (Parser.binding pos (some f) bindings body).ChartedBy
        (Scoping.join (pos :: qs) G' F) (pos :: qs ++ ps) [] := by
      refine .of_parts hcallee.root.1 hcallee.root.2 fun added c hc _ => ?_
      cases hc with
      | callee => exact hcallee
      | argument ha =>
        obtain ⟨⟨x, d⟩, hb, rfl⟩ := List.mem_map.1 ha
        obtain ⟨n, hn⟩ := List.getElem?_of_mem hb
        show Node.ChartedBy _ _ _ (if d.isPresent then d else .bool pos false)
        by_cases hd : d.isPresent = true
        · rw [if_pos hd]
          exact (hF n x d hn hd).joinRight hdisjoint' (List.subset_append_right _ _)
        · rw [if_neg hd]
          exact .of_parts hcallee.root.1 hcallee.root.2 nofun
    refine ⟨_, hcall.mono fun p hp => ?_⟩
    simp only [List.cons_append, List.mem_cons, List.mem_append] at hp ⊢
    tauto

/-- A conditional. Only its second branch may be missing. -/
theorem charted_branch {pos : Pos} {H : Pos → Scoping} {rs : List Pos}
    {condition whenTrue whenFalse : Node} (hpos : pos ∉ ps ∧ pos ∉ qs ∧ pos ∉ rs)
    (hcondition : condition.ChartedBy F ps []) (htrue : whenTrue.ChartedBy G qs [])
    (hfalse : whenFalse.isPresent = true → whenFalse.ChartedBy H rs [])
    (hpq : ps.Disjoint qs) (hpr : ps.Disjoint rs) (hqr : qs.Disjoint rs) :
    ∃ K : Pos → Scoping, (Node.branch pos condition whenTrue whenFalse).ChartedBy K
      (pos :: (ps ++ (qs ++ rs))) [] := by
  have hpos : pos ∉ ps ++ (qs ++ rs) := by simpa only [List.mem_append, not_or] using hpos
  have hps : ps.Disjoint (qs ++ rs) := List.disjoint_append_right.2 ⟨hpq, hpr⟩
  refine Node.ChartedBy.at_fresh (e := .branch pos condition whenTrue whenFalse) hpos
    (F := Scoping.join ps F (Scoping.join qs G H)) fun added c hc hpresent => ?_
  have hright : qs ++ rs ⊆ ps ++ (qs ++ rs) := List.subset_append_right _ _
  cases hc with
  | condition => exact hcondition.joinLeft (List.subset_append_left _ _)
  | whenTrue => exact (htrue.joinLeft (List.subset_append_left _ _)).joinRight hps hright
  | whenFalse =>
    exact ((hfalse hpresent).joinRight hqr (List.subset_append_right _ _)).joinRight hps hright

/-- The items of a list, the first of which has been read before the others. -/
theorem charted_cons {i : Item} {x : i.Result} {xs : List i.Result} {rs : List Pos}
    (hdisjoint : ps.Disjoint qs) (hps : ps ⊆ rs) (hqs : qs ⊆ rs) (hx : i.ChartedBy F ps [] x)
    (hxs : ∀ added : Nat → Scoping, ∃ F, ∀ (n : Nat) (x : i.Result), xs[n]? = some x →
      i.ChartedBy F qs (added n) x) (added : Nat → Scoping) :
    ∃ F, ∀ (n : Nat) (y : i.Result), (x :: xs)[n]? = some y →
      i.ChartedBy F rs (added n) y := by
  obtain ⟨G, hG⟩ := hxs fun n => added (n + 1)
  refine ⟨Scoping.join ps (fun p => F p ++ added 0) G, fun n y hy => ?_⟩
  cases n with
  | zero =>
    cases hy
    exact (hx.shift _).joinLeft hps
  | succ n => exact (hG n y hy).joinRight hdisjoint hqs

end

/-- What the parser reads from tokens at different positions has a chart. -/
theorem Reads.charted {g : Goal} {ts : List Token} {next : Lexeme} {r : g.Result}
    (h : Reads g ts next r) (hts : (ts.map (·.pos)).Nodup) : g.Charted (ts.map (·.pos)) r := by
  induction h with
  | expression _ _ ih ih' | operand _ _ ih ih' =>
    rw [List.map_append] at hts ⊢
    obtain ⟨hfirst, hrest, hdisjoint⟩ := List.nodup_append'.1 hts
    obtain ⟨F, hF⟩ := ih hfirst
    exact ih' hrest _ F hF hdisjoint
  | chainEnd _ | callsEnd _ =>
    intro qs F hleft _
    exact ⟨F, hleft.mono (List.subset_append_left _ _)⟩
  | @chainMore t c _ _ _ _ _ _ _ _ _ _ _ _ _ _ ih ih' ih'' =>
    intro qs F hleft hqs
    simp only [List.map_cons, List.map_append, List.nodup_cons, List.nodup_append',
      List.disjoint_append_right, List.disjoint_cons_right] at hts hqs
    obtain ⟨-, hfirst, ⟨hrest, hmore, hrm⟩, hfr, hfm⟩ := hts
    obtain ⟨-, hqf, hqr, hqm⟩ := hqs
    obtain ⟨G, hG⟩ := ih hfirst
    obtain ⟨H, hH⟩ := ih' hrest _ G hG hfr
    have hcombined := chartedBy_combine c hleft hH (List.disjoint_append_right.2 ⟨hqf, hqr⟩)
    have hfar := List.disjoint_append_left.2 ⟨hqm, List.disjoint_append_left.2 ⟨hfm, hrm⟩⟩
    obtain ⟨K, hK⟩ := ih'' hmore _ _ hcombined hfar
    exact ⟨K, hK.mono fun p hp => by grind⟩
  | @callsMore _ _ _ args _ _ _ _ _ _ ih ih' =>
    intro qs F hcallee hqs
    simp only [List.map_cons, List.map_append, List.nodup_cons, List.nodup_append',
      List.disjoint_append_right, List.disjoint_cons_right] at hts hqs
    obtain ⟨-, hlist, hmore, hlm⟩ := hts
    obtain ⟨-, hql, hqm⟩ := hqs
    obtain ⟨G, hG⟩ := ih hlist fun _ => []
    have hcall := chartedBy_call hcallee (fun a ha =>
      (List.getElem?_of_mem ha).elim fun n hn => hG n a hn) hql
    obtain ⟨K, hK⟩ := ih' hmore _ _ hcall (List.disjoint_append_left.2 ⟨hqm, hlm⟩)
    exact ⟨K, hK.mono fun p hp => by grind⟩
  | leaf h => exact charted_leaf h
  | paren _ _ _ ih =>
    simp only [List.map_cons, List.map_append, List.nodup_cons, List.nodup_append'] at hts
    obtain ⟨F, hF⟩ := ih hts.2.1
    exact ⟨F, Node.ChartedBy.mono hF fun p hp => by grind⟩
  | block _ _ ih =>
    simp only [List.map_cons, List.nodup_cons] at hts
    obtain ⟨F, hF⟩ := ih hts.2 fun _ => []
    exact charted_block hts.1 fun e he =>
      (List.getElem?_of_mem he).elim fun n hn => hF n e hn
  | ifWord _ _ ih =>
    simp only [List.map_cons, List.nodup_cons] at hts
    exact ih hts.2 hts.1
  | @lambdaWord t _ names ts us f params _ _ _ _ _ _ _ _ ih =>
    simp only [List.map_cons, List.map_append, List.nodup_cons, List.nodup_append',
      List.mem_append, List.mem_cons, not_or] at hts
    obtain ⟨⟨-, -, -, hpos⟩, -, ⟨-, -, hbody, -⟩, -⟩ := hts
    obtain ⟨F, hF⟩ := ih hbody
    obtain ⟨G, hG⟩ := charted_lambda f params hpos hF
    exact ⟨G, Node.ChartedBy.mono hG fun p hp => by grind⟩
  | letWord _ _ _ _ _ ih ih' =>
    simp only [List.map_cons, List.map_append, List.nodup_cons, List.nodup_append',
      List.mem_append, List.mem_cons, not_or] at hts
    obtain ⟨⟨-, -, hpl, hpb⟩, -, ⟨-, hlist, hbody, hlb⟩, -⟩ := hts
    obtain ⟨G, hG⟩ := ih' hbody
    have hlist : ∀ added : Nat → Scoping, _ := fun added =>
      (ih hlist added).imp fun F hF n x d hd => hF n (x, d) hd
    obtain ⟨H, hH⟩ := charted_binding _ ⟨hpl, hpb⟩ hlb hlist hG
    exact ⟨H, Node.ChartedBy.mono hH fun p hp => by grind⟩
  | withoutElse _ _ _ _ ih ih' =>
    intro hpos
    simp only [List.map_append, List.nodup_append', List.mem_append, List.disjoint_append_right,
      not_or] at hts hpos
    obtain ⟨hfirst, ⟨-, hbranch, -⟩, -, hdisjoint⟩ := hts
    obtain ⟨F, hF⟩ := ih hfirst
    obtain ⟨G, hG⟩ := ih' hbranch
    obtain ⟨K, hK⟩ := charted_branch (H := F) ⟨hpos.1, hpos.2.2, List.not_mem_nil⟩ hF hG
      (fun h : Node.missing.isPresent = true => nomatch h) hdisjoint (List.disjoint_nil_right _)
      (List.disjoint_nil_right _)
    exact ⟨K, hK.mono fun p hp => by grind⟩
  | withElse _ _ _ _ _ ih ih' ih'' =>
    intro hpos
    simp only [List.map_append, List.map_cons, List.nodup_append', List.nodup_cons, List.mem_append,
      List.mem_cons, List.disjoint_append_right, List.disjoint_cons_right, not_or] at hts hpos
    obtain ⟨hfirst, ⟨-, ⟨hbranch, ⟨-, hrest⟩, -, hbr⟩, -⟩, -, hfb, -, hfr⟩ := hts
    obtain ⟨F, hF⟩ := ih hfirst
    obtain ⟨G, hG⟩ := ih' hbranch
    obtain ⟨H, hH⟩ := ih'' hrest
    obtain ⟨K, hK⟩ := charted_branch ⟨hpos.1, hpos.2.2.1, hpos.2.2.2.2⟩ hF hG (fun _ => hH)
      hfb hfr hbr
    exact ⟨K, hK.mono fun p hp => by grind⟩
  | name => exact ⟨fun _ => [], trivial⟩
  | undefined _ => exact ⟨fun _ => [], nofun⟩
  | defined _ _ ih =>
    simp only [List.map_cons, List.nodup_cons] at hts
    obtain ⟨F, hF⟩ := ih hts.2.2
    exact ⟨F, fun _ => Node.ChartedBy.mono hF fun p hp => by grind⟩
  | close _ | trailing _ _ => exact fun _ => ⟨fun _ => [], nofun⟩
  | itemFirst _ _ ih ih' =>
    rw [List.map_append] at hts ⊢
    obtain ⟨hfirst, hrest, hdisjoint⟩ := List.nodup_append'.1 hts
    obtain ⟨F, hF⟩ := ih hfirst
    exact charted_cons hdisjoint (List.subset_append_left _ _) (List.subset_append_right _ _) hF
      (ih' hrest)
  | itemNext _ _ _ ih ih' =>
    simp only [List.map_cons, List.map_append, List.nodup_cons] at hts
    obtain ⟨hfirst, hrest, hdisjoint⟩ := List.nodup_append'.1 hts.2
    obtain ⟨F, hF⟩ := ih hfirst
    exact charted_cons hdisjoint (fun p hp => by grind) (fun p hp => by grind) hF (ih' hrest)

theorem ReadsProgram.charted {ts : List Token} {es : List Node} (h : ReadsProgram ts es)
    (hts : (ts.map (·.pos)).Nodup) :
    ∃ F : Pos → Scoping, ∀ e ∈ es, e.ChartedBy F (ts.map (·.pos)) [] := by
  induction h with
  | nil => exact ⟨fun _ => [], List.forall_mem_nil _⟩
  | last h =>
    obtain ⟨F, hF⟩ := h.charted hts
    exact ⟨F, List.forall_mem_singleton.2 hF⟩
  | @cons ts _ _ _ _ h _ _ ih =>
    simp only [List.map_append, List.map_cons, List.nodup_append', List.nodup_cons,
      List.disjoint_cons_right] at hts
    obtain ⟨hfirst, ⟨-, hrest⟩, -, hdisjoint⟩ := hts
    obtain ⟨F, hF⟩ := h.charted hfirst
    obtain ⟨G, hG⟩ := ih hrest
    refine ⟨Scoping.join (ts.map (·.pos)) F G, List.forall_mem_cons.2 ⟨?_, fun e he => ?_⟩⟩
    · exact Node.ChartedBy.joinLeft hF fun p hp => by grind
    · exact (hG e he).joinRight hdisjoint fun p hp => by grind

/-- A node has one static scope in a parsed program, wherever it occurs there. -/
theorem Program.scoping_unique {source : Text} {p : Program} (h : Program.parse source = .ok p)
    {σ τ : Scoping} {e : Node} (hσ : p.toNode.Occurs σ e) (hτ : p.toNode.Occurs τ e) : σ = τ := by
  obtain ⟨ts, pos, hts, hreads, _⟩ := parse_eq_ok_iff.1 h
  obtain ⟨F, hF⟩ := hreads.charted (Stream.ofSource_eq_iff.1 ⟨pos, hts⟩).nodup_pos
  -- The program itself may share its position with a part of it, and has no chart. But where it
  -- occurred in a part, that part would occur in itself.
  have hwithin : ∀ {σ e}, p.toNode.Occurs σ e → (∃ c ∈ p.body, c.Occurs σ e) ∨ e = p.toNode := by
    intro σ e he
    rcases he.cases_parts with ⟨-, rfl⟩ | ⟨_, c, τ, hc, -, hoccurs, rfl⟩
    · exact .inr rfl
    · cases hc with
      | statement hmem => exact .inl ⟨c, hmem, (List.append_nil τ).symm ▸ hoccurs⟩
  have hroot : ∀ {σ}, p.toNode.Occurs σ p.toNode → σ = [] := by
    intro σ he
    rcases he.cases_parts with ⟨rfl, -⟩ | ⟨_, c, τ, hc, hpresent, hoccurs, rfl⟩
    · rfl
    · cases hc with
      | statement hmem =>
        have hagain := (hF c hmem _ _ (hoccurs.inside (.statement hmem) hpresent)).2
        simpa [(hF c hmem).root.2] using hagain
  rcases hwithin hσ with ⟨c, hc, hce⟩ | rfl
  · rcases hwithin hτ with ⟨d, hd, hde⟩ | rfl
    · have hcF := (hF c hc σ e hce).2
      have hdF := (hF d hd τ e hde).2
      rw [List.append_nil] at hcF hdF
      exact hcF.symm.trans hdF
    · rw [hroot hσ, hroot hτ]
  · rw [hroot hσ, hroot hτ]

end Mycel
