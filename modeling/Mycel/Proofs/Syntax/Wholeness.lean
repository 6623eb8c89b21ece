import Mycel.Proofs.Syntax.Acceptance

/-!
# The trees that the parser makes

A tree that a host builds can have a part missing anywhere, an operator that no one can apply, and
nodes without a position. `Node.Whole` says that a tree has none of these where they would matter to
an evaluation. The trees of the parser are whole, and their positions are those of tokens.
-/

namespace Mycel

/-- An operator that can be applied to some values. -/
def Operator.Applicable (o : Operator) : Prop := ∀ spelling, o ≠ .other spelling

/-- A tree is whole: only what may be missing is missing, its operators can be applied, and every
position that an error may have satisfies `places`. -/
inductive Node.Whole (places : Pos → Prop) : Node → Prop
  | number {pos : Pos} {x : Float} : Whole places (.number pos x)
  | string {pos : Pos} {t : Text} : Whole places (.string pos t)
  | bool {pos : Pos} {b : Bool} : Whole places (.bool pos b)
  | identifier {pos : Pos} {name : Text} (h : places pos) : Whole places (.identifier pos name)
  | assign {pos : Pos} {target value : Node} (h : places pos) (htarget : Whole places target)
      (hvalue : Whole places value) : Whole places (.assign pos target value)
  | binary {pos : Pos} {o : Operator} {left right : Node} (h : places pos) (ho : o.Applicable)
      (hleft : Whole places left) (hright : Whole places right) :
      Whole places (.binary pos o left right)
  | branch {pos : Pos} {condition whenTrue whenFalse : Node} (hcondition : Whole places condition)
      (htrue : whenTrue.isPresent = true → Whole places whenTrue)
      (hfalse : whenFalse.isPresent = true → Whole places whenFalse) :
      Whole places (.branch pos condition whenTrue whenFalse)
  | lambda {pos : Pos} {name : Option Text} {params : List Text} {body : Node}
      (hbody : Whole places body) : Whole places (.lambda pos name params body)
  | program {pos : Pos} {body : List Node} (hbody : ∀ e ∈ body, Whole places e) :
      Whole places (.program pos body)
  | call {pos : Pos} {callee : Node} {args : List Node} (h : places pos)
      (hcallee : Whole places callee) (hargs : ∀ a ∈ args, Whole places a) :
      Whole places (.call pos callee args)
  | binding {pos : Pos} {bindings : List (Text × Node)} {body : Node}
      (hbindings : ∀ b ∈ bindings, b.2.isPresent = true → Whole places b.2)
      (hbody : Whole places body) : Whole places (.binding pos bindings body)

/-- A whole tree that has a position itself. -/
def Node.Placed (places : Pos → Prop) (e : Node) : Prop := e.Whole places ∧ places e.pos

def Item.Placed (places : Pos → Prop) : (i : Item) → i.Result → Prop
  | .expression, e => Node.Placed places e
  | .name, _ => True
  | .definition, (_, d) => d.isPresent = true → Node.Whole places d

/-- What the parser makes of a goal is whole, if what it starts from is. -/
def Goal.Placed (places : Pos → Prop) : (g : Goal) → g.Result → Prop
  | .item i, x => i.Placed places x
  | .items i _ _, xs => ∀ x : i.Result, x ∈ (show List i.Result from xs) → i.Placed places x
  | .chain left _, e => left.Placed places → Node.Placed places e
  | .calls callee, e => callee.Placed places → Node.Placed places e
  | .operand, e | .primary, e => Node.Placed places e
  | .conditional pos, e => places pos → Node.Placed places e

section

variable {places : Pos → Prop}

theorem applicable_of_connective {l : Lexeme} {o : Operator}
    (h : Parser.connective? l = some (.operator o)) : o.Applicable := by
  have hall : ∀ c ∈ Connective.all, ∀ spelling, c ≠ .operator (.other spelling) := by
    simp [Connective.all]
  intro spelling ho
  exact hall _ (mem_of_connective h) spelling (congrArg Connective.operator ho)

theorem placed_combine {l : Lexeme} {c : Connective} (hc : Parser.connective? l = some c)
    {left right : Node} (hleft : left.Placed places) (hright : right.Placed places) :
    (Parser.combine c left right).Placed places := by
  cases c with
  | assign => exact ⟨.assign hleft.2 hleft.1 hright.1, hleft.2⟩
  | or => exact ⟨.branch hleft.1 nofun fun _ => hright.1, hleft.2⟩
  | and => exact ⟨.branch hleft.1 (fun _ => hright.1) nofun, hleft.2⟩
  | operator o => exact ⟨.binary hleft.2 (applicable_of_connective hc) hleft.1 hright.1, hleft.2⟩

theorem placed_leaf {t : Token} {e : Node} (h : leaf? t = some e) (ht : places t.pos) :
    e.Placed places := by
  unfold leaf? at h
  split at h <;> cases h
  · exact ⟨.bool, ht⟩
  · exact ⟨.bool, ht⟩
  · exact ⟨.identifier ht, ht⟩
  · exact ⟨.number, ht⟩
  · exact ⟨.string, ht⟩

theorem placed_block {pos : Pos} (hpos : places pos) {body : List Node}
    (hbody : ∀ e ∈ body, e.Placed places) : (Parser.block pos body).Placed places := by
  match body with
  | [] => exact ⟨.bool, hpos⟩
  | [e] => exact hbody e (List.mem_singleton_self e)
  | _ :: _ :: _ => exact ⟨.program fun e he => (hbody e he).1, hpos⟩

theorem placed_binding {pos : Pos} (hpos : places pos) (f : Option Text)
    {bindings : List (Text × Node)}
    (hbindings : ∀ b ∈ bindings, b.2.isPresent = true → b.2.Whole places) {body : Node}
    (hbody : body.Placed places) : (Parser.binding pos f bindings body).Placed places := by
  cases f with
  | none => exact ⟨.binding hbindings hbody.1, hpos⟩
  | some f =>
    refine ⟨.call hpos (.lambda hbody.1) fun a ha => ?_, hpos⟩
    obtain ⟨⟨x, d⟩, hb, rfl⟩ := List.mem_map.1 ha
    show Node.Whole places (if d.isPresent then d else .bool pos false)
    by_cases hd : d.isPresent = true
    · rw [if_pos hd]
      exact hbindings _ hb hd
    · rw [if_neg hd]
      exact .bool

/-- The parser makes whole trees, with positions of the tokens that it takes. -/
theorem Reads.placed {g : Goal} {ts : List Token} {next : Lexeme} {r : g.Result}
    (h : Reads g ts next r) (hts : ∀ t ∈ ts, places t.pos) : g.Placed places r := by
  induction h with
  | expression _ _ ih ih' =>
    simp only [List.forall_mem_append] at hts
    exact ih' hts.2 (ih hts.1)
  | chainEnd _ => exact id
  | chainMore hc _ _ _ _ ih ih' ih'' =>
    simp only [List.forall_mem_cons, List.forall_mem_append] at hts
    intro hleft
    exact ih'' hts.2.2.2 (placed_combine hc hleft (ih' hts.2.2.1 (ih hts.2.1)))
  | callsEnd _ => exact id
  | callsMore _ _ _ ih ih' =>
    simp only [List.forall_mem_cons, List.forall_mem_append] at hts
    intro hcallee
    exact ih' hts.2.2 ⟨.call hcallee.2 hcallee.1 fun a ha => (ih hts.2.1 a ha).1, hcallee.2⟩
  | operand _ _ ih ih' =>
    simp only [List.forall_mem_append] at hts
    exact ih' hts.2 (ih hts.1)
  | leaf h => exact placed_leaf h (hts _ (List.mem_singleton_self _))
  | paren _ _ _ ih =>
    simp only [List.forall_mem_cons, List.forall_mem_append] at hts
    exact ih hts.2.1
  | block _ _ ih =>
    simp only [List.forall_mem_cons] at hts
    exact placed_block hts.1 (ih hts.2)
  | ifWord _ _ ih =>
    simp only [List.forall_mem_cons] at hts
    exact ih hts.2 hts.1
  | lambdaWord _ _ _ _ _ _ ih =>
    simp only [List.forall_mem_cons, List.forall_mem_append] at hts
    exact ⟨.lambda (ih hts.2.2.2.2).1, hts.1⟩
  | letWord _ _ _ _ _ ih ih' =>
    simp only [List.forall_mem_cons, List.forall_mem_append] at hts
    exact placed_binding hts.1 _ (ih hts.2.2.2.1) (ih' hts.2.2.2.2)
  | withoutElse _ _ _ _ ih ih' =>
    simp only [List.forall_mem_append] at hts
    exact fun hpos => ⟨.branch (ih hts.1).1 (fun _ => (ih' hts.2.2).1) nofun, hpos⟩
  | withElse _ _ _ _ _ ih ih' ih'' =>
    simp only [List.forall_mem_cons, List.forall_mem_append] at hts
    exact fun hpos => ⟨.branch (ih hts.1).1 (fun _ => (ih' hts.2.2.1).1)
      fun _ => (ih'' hts.2.2.2.2).1, hpos⟩
  | name => trivial
  | undefined _ => exact nofun
  | defined _ _ ih =>
    simp only [List.forall_mem_cons] at hts
    exact fun _ => (ih hts.2.2).1
  | close _ | trailing _ _ => exact List.forall_mem_nil _
  | itemFirst _ _ ih ih' =>
    simp only [List.forall_mem_append] at hts
    exact List.forall_mem_cons.2 ⟨ih hts.1, ih' hts.2⟩
  | itemNext _ _ _ ih ih' =>
    simp only [List.forall_mem_cons, List.forall_mem_append] at hts
    exact List.forall_mem_cons.2 ⟨ih hts.2.1, ih' hts.2.2⟩

theorem ReadsProgram.placed {ts : List Token} {es : List Node} (h : ReadsProgram ts es)
    (hts : ∀ t ∈ ts, places t.pos) : ∀ e ∈ es, e.Placed places := by
  induction h with
  | nil => exact List.forall_mem_nil _
  | last h =>
    intro e he
    cases List.mem_singleton.1 he
    exact h.placed hts
  | cons h _ _ ih =>
    simp only [List.forall_mem_append, List.forall_mem_cons] at hts
    exact List.forall_mem_cons.2 ⟨h.placed hts.1, ih hts.2.2⟩

end

/-- A parsed program is whole, and its positions are those of the tokens of its source. -/
theorem Program.whole_of_parse {source : Text} {p : Program} (h : Program.parse source = .ok p) :
    ∃ ts, (Cursor.ofSource source).Scans ts ∧ p.toNode.Whole fun pos => ∃ t ∈ ts, t.pos = pos := by
  obtain ⟨ts, pos, hts, hreads, _⟩ := parse_eq_ok_iff.1 h
  refine ⟨ts, Stream.ofSource_eq_iff.1 ⟨pos, hts⟩, .program fun e he => ?_⟩
  exact (hreads.placed (fun t ht => ⟨t, ht, rfl⟩) e he).1

end Mycel
