import Mycel.Proofs.Syntax.Printing

/-!
# Parsing elsewhere

Tokens that say the same at other positions are parsed alike: to the same tree, except for
positions, or with the same fault. No function of the parser looks at a position, so that each of
them agrees with itself on streams that are alike (`agrees`).
-/

namespace Mycel

variable {α β : Type}

/-- Two computations have related results, or the same fault at positions of their own. -/
def Agree (R : α → α → Prop) : Except Error α → Except Error α → Prop
  | .ok x, .ok y => R x y
  | .error e, .error e' => ∃ (f : Fault) (p q : Pos), e = f.error p ∧ e' = f.error q
  | _, _ => False

theorem Agree.bind {R : α → α → Prop} {S : β → β → Prop} {x y : Except Error α}
    {f g : α → Except Error β} (h : Agree R x y) (hf : ∀ a b, R a b → Agree S (f a) (g b)) :
    Agree S (x >>= f) (y >>= g) := by
  cases x with
  | ok a =>
    cases y with
    | ok b => exact hf a b h
    | error e => exact h.elim
  | error e =>
    cases y with
    | ok b => exact h.elim
    | error e' => exact h

/-! ## Streams -/

namespace Stream

/-- The same lexemes up to the end of the input, wherever they stand. -/
inductive Alike : Stream → Stream → Prop
  | token {t u : Token} {s s' : Stream} (h : t.lexeme = u.lexeme) (rest : Alike s s') :
      Alike (.token t s) (.token u s')
  | finish (p q : Pos) : Alike (.finish p) (.finish q)

variable {s s' : Stream}

theorem Alike.peek (h : s.Alike s') : Agree (fun t u => t.lexeme = u.lexeme) s.peek s'.peek := by
  cases h with
  | token h _ => exact h
  | finish _ _ => exact rfl

theorem Alike.tail (h : s.Alike s') : s.tail.Alike s'.tail := by
  cases h with
  | token _ rest => exact rest
  | finish p q => exact .finish p q

theorem Alike.length (h : s.Alike s') : s.length = s'.length := by
  induction h with
  | token _ _ ih => exact congrArg (· + 1) ih
  | finish _ _ => rfl

theorem Alike.unexpected (h : s.Alike s') (R : α → α → Prop) :
    Agree R (.error s.unexpected) (.error s'.unexpected) := by
  cases h with
  | @token t u _ _ h _ =>
    exact ⟨.unexpectedToken t.lexeme.describe, t.pos, u.pos, rfl, by rw [h]; rfl⟩
  | finish p q => exact ⟨.unexpectedToken (Lexeme.describe .endOfInput), p, q, rfl, rfl⟩

theorem Alike.expect (h : s.Alike s') (l : Lexeme) : Agree Alike (s.expect l) (s'.expect l) := by
  refine h.peek.bind fun t u htu => ?_
  rw [← htu]
  split_ifs
  · exact h.tail
  · exact ⟨_, t.pos, u.pos, rfl, rfl⟩

theorem alike_prepend {ts us : List Token} (h : ts.map (·.lexeme) = us.map (·.lexeme))
    (p q : Pos) : (prepend ts (.finish p)).Alike (prepend us (.finish q)) := by
  induction ts generalizing us with
  | nil =>
    cases List.map_eq_nil_iff.1 h.symm
    exact .finish p q
  | cons t ts ih =>
    cases us with
    | nil => cases h
    | cons u us =>
      rw [List.map_cons, List.map_cons, List.cons.injEq] at h
      exact .token h.1 (ih h.2)

/-- What was read looks the same, and so does what comes after it. -/
def SameUpTo (view : α → β) (x y : α × Stream) : Prop := view x.1 = view y.1 ∧ x.2.Alike y.2

end Stream

open Mycel.Stream

theorem agree_name {s s' : Stream} (hs : s.Alike s') :
    Agree (SameUpTo id) (Parser.name s) (Parser.name s') := by
  unfold Parser.name
  refine hs.peek.bind fun t u h => ?_
  obtain ⟨l, p⟩ := t
  obtain ⟨l', q⟩ := u
  obtain rfl : l = l' := h
  cases l with
  | identifier x => exact ⟨rfl, hs.tail⟩
  | _ => exact ⟨_, p, q, rfl, rfl⟩

theorem agree_optionalName {s s' : Stream} (hs : s.Alike s') :
    Agree (SameUpTo id) (Parser.optionalName s) (Parser.optionalName s') := by
  unfold Parser.optionalName
  refine hs.peek.bind fun t u h => ?_
  obtain ⟨l, p⟩ := t
  obtain ⟨l', q⟩ := u
  obtain rfl : l = l' := h
  cases l with
  | identifier x => exact ⟨rfl, hs.tail⟩
  | _ => exact ⟨rfl, hs⟩

theorem agree_delimited {view : α → β} {item : Stream → Except Error (α × Stream)}
    (hitem : ∀ {s s' : Stream}, s.Alike s' → Agree (SameUpTo view) (item s) (item s'))
    (separator stop : Mark) (k : Nat) (first : Bool) {s s' : Stream} (hs : s.Alike s') :
    Agree (SameUpTo (List.map view)) (Parser.delimited item separator stop k first s)
      (Parser.delimited item separator stop k first s') := by
  induction k generalizing first s s' with
  | zero => exact hs.unexpected _
  | succ k ih =>
    have hclose : ∀ {s s' : Stream}, s.Alike s' → Agree (SameUpTo (List.map view))
        (s.expect (.mark stop) >>= fun s => pure ([], s))
        (s'.expect (.mark stop) >>= fun s => pure ([], s)) := fun hs =>
      (hs.expect _).bind fun s s' hs => ⟨rfl, hs⟩
    have hmore : ∀ {s s' : Stream}, s.Alike s' → Agree (SameUpTo (List.map view))
        (item s >>= fun x => Parser.delimited item separator stop k false x.2 >>= fun y =>
          pure (x.1 :: y.1, y.2))
        (item s' >>= fun x => Parser.delimited item separator stop k false x.2 >>= fun y =>
          pure (x.1 :: y.1, y.2)) := by
      intro s s' hs
      refine (hitem hs).bind fun x x' hx => ?_
      refine (ih false hx.2).bind fun xs xs' hxs => ?_
      exact ⟨congrArg₂ List.cons hx.1 hxs.1, hxs.2⟩
    simp only [Parser.delimited]
    refine hs.peek.bind fun t u h => ?_
    rw [← h]
    split_ifs
    · exact hclose hs
    · refine hs.peek.bind fun t u h => ?_
      rw [← h]
      split_ifs
      · exact hclose hs
      · exact hmore hs
    · refine (hs.expect _).bind fun s s' hs => ?_
      refine hs.peek.bind fun t u h => ?_
      rw [← h]
      split_ifs
      · exact hclose hs
      · exact hmore hs

/-! ## Trees -/

theorem Node.isPresent_bare (e : Node) : e.bare.isPresent = e.isPresent := by
  cases e <;> rfl

theorem bare_combine (c : Connective) {left left' right right' : Node}
    (hleft : left.bare = left'.bare) (hright : right.bare = right'.bare) :
    (Parser.combine c left right).bare = (Parser.combine c left' right').bare := by
  cases c <;> simp [Parser.combine, hleft, hright]

theorem bare_block (p q : Pos) {body body' : List Node}
    (h : body.map Node.bare = body'.map Node.bare) :
    (Parser.block p body).bare = (Parser.block q body').bare := by
  have hlength : body.length = body'.length := by
    have := congrArg List.length h
    simpa using this
  match body, body' with
  | [], [] => rfl
  | [e], [e'] => exact (List.cons.inj h).1
  | e :: f :: es, e' :: f' :: es' => simpa [Parser.block, Node.bareAll_eq] using h

theorem bare_definitions (pos : Pos) (bindings : List (Text × Node)) :
    (bindings.map fun b => if b.2.isPresent then b.2 else .bool pos false).map Node.bare =
      (bindings.map fun b => (b.1, b.2.bare)).map fun b =>
        if b.2.isPresent then b.2 else .bool .none false := by
  simp only [List.map_map]
  refine List.map_congr_left fun b _ => ?_
  simp only [Function.comp_apply, Node.isPresent_bare]
  split_ifs <;> rfl

theorem bare_binding (p q : Pos) (name : Option Text) {bindings bindings' : List (Text × Node)}
    (h : bindings.map (fun b => (b.1, b.2.bare)) = bindings'.map fun b => (b.1, b.2.bare))
    {body body' : Node} (hbody : body.bare = body'.bare) :
    (Parser.binding p name bindings body).bare = (Parser.binding q name bindings' body').bare := by
  cases name with
  | none => simp [Parser.binding, Node.bareBindings_eq, h, hbody]
  | some f =>
    have hnames : bindings.map (·.1) = bindings'.map (·.1) := by
      have := congrArg (List.map Prod.fst) h
      simpa [Function.comp_def] using this
    simp only [Parser.binding, Node.bare, Node.bareAll_eq, bare_definitions, h, hnames, hbody]

/-! ## The parser -/

/-- The functions of the parser, with a bound on the depth of calls, agree with themselves. -/
structure Agrees (n : Nat) : Prop where
  expression : ∀ {s s' : Stream}, s.Alike s' →
    Agree (SameUpTo Node.bare) (Parser.expression n s) (Parser.expression n s')
  chain : ∀ {left left' : Node} (level : Nat) {s s' : Stream}, left.bare = left'.bare →
    s.Alike s' → Agree (SameUpTo Node.bare) (Parser.chain n left level s)
      (Parser.chain n left' level s')
  calls : ∀ {callee callee' : Node} {s s' : Stream}, callee.bare = callee'.bare → s.Alike s' →
    Agree (SameUpTo Node.bare) (Parser.calls n callee s) (Parser.calls n callee' s')
  operand : ∀ {s s' : Stream}, s.Alike s' →
    Agree (SameUpTo Node.bare) (Parser.operand n s) (Parser.operand n s')
  primary : ∀ {s s' : Stream}, s.Alike s' →
    Agree (SameUpTo Node.bare) (Parser.primary n s) (Parser.primary n s')
  conditional : ∀ (p q : Pos) {s s' : Stream}, s.Alike s' →
    Agree (SameUpTo Node.bare) (Parser.conditional n p s) (Parser.conditional n q s')
  definition : ∀ {s s' : Stream}, s.Alike s' →
    Agree (SameUpTo fun b => (b.1, b.2.bare)) (Parser.definition n s) (Parser.definition n s')

section

variable {n : Nat} (ih : Agrees n) {s s' : Stream} (hs : s.Alike s')

include ih hs

theorem agree_expression :
    Agree (SameUpTo Node.bare) (Parser.expression (n + 1) s) (Parser.expression (n + 1) s') := by
  simp only [Parser.expression]
  refine (ih.operand hs).bind fun a b h => ?_
  refine (ih.chain 0 h.1 h.2).bind fun a b h => ?_
  exact ih.calls h.1 h.2

theorem agree_chain {left left' : Node} (level : Nat) (hleft : left.bare = left'.bare) :
    Agree (SameUpTo Node.bare) (Parser.chain (n + 1) left level s)
      (Parser.chain (n + 1) left' level s') := by
  simp only [Parser.chain]
  refine hs.peek.bind fun t u h => ?_
  rw [← h]
  split
  · exact ⟨hleft, hs⟩
  · split_ifs
    · exact ⟨hleft, hs⟩
    · refine (ih.operand hs.tail).bind fun a b h => ?_
      refine (ih.chain _ h.1 h.2).bind fun a b h => ?_
      exact ih.chain level (bare_combine _ hleft h.1) h.2

theorem agree_calls {callee callee' : Node} (hcallee : callee.bare = callee'.bare) :
    Agree (SameUpTo Node.bare) (Parser.calls (n + 1) callee s)
      (Parser.calls (n + 1) callee' s') := by
  simp only [Parser.calls]
  refine hs.peek.bind fun t u h => ?_
  rw [← h]
  split_ifs
  · refine (agree_delimited ih.expression _ _ _ _ hs.tail).bind fun a b h => ?_
    exact ih.calls (by simp [Node.bareAll_eq, hcallee, h.1]) h.2
  · exact ⟨hcallee, hs⟩

theorem agree_operand :
    Agree (SameUpTo Node.bare) (Parser.operand (n + 1) s) (Parser.operand (n + 1) s') := by
  simp only [Parser.operand]
  exact (ih.primary hs).bind fun a b h => ih.calls h.1 h.2

theorem agree_primary :
    Agree (SameUpTo Node.bare) (Parser.primary (n + 1) s) (Parser.primary (n + 1) s') := by
  simp only [Parser.primary]
  refine hs.peek.bind fun t u h => ?_
  rw [← h]
  split
  · refine (ih.expression hs.tail).bind fun a b h => ?_
    exact (h.2.expect _).bind fun s s' hs => ⟨h.1, hs⟩
  · refine (agree_delimited ih.expression _ _ _ _ hs.tail).bind fun a b h => ?_
    exact ⟨bare_block _ _ h.1, h.2⟩
  · exact ih.conditional _ _ hs.tail
  · exact ⟨rfl, hs.tail⟩
  · exact ⟨rfl, hs.tail⟩
  · refine (agree_optionalName hs.tail).bind fun f f' hf => ?_
    refine (hf.2.expect _).bind fun s s' hs => ?_
    refine (agree_delimited agree_name _ _ _ _ hs).bind fun ps ps' hps => ?_
    refine (ih.expression hps.2).bind fun a b h => ⟨?_, h.2⟩
    have hname : f.1 = f'.1 := hf.1
    have hparams : ps.1 = ps'.1 := by simpa using hps.1
    simp only [Node.bare, hname, hparams, h.1]
  · refine (agree_optionalName hs.tail).bind fun f f' hf => ?_
    refine (hf.2.expect _).bind fun s s' hs => ?_
    refine (agree_delimited ih.definition _ _ _ _ hs).bind fun bs bs' hbs => ?_
    refine (ih.expression hbs.2).bind fun a b h => ⟨?_, h.2⟩
    have hname : f.1 = f'.1 := hf.1
    rw [hname]
    exact bare_binding _ _ _ hbs.1 h.1
  · exact ⟨rfl, hs.tail⟩
  · exact ⟨rfl, hs.tail⟩
  · exact ⟨rfl, hs.tail⟩
  · exact hs.unexpected _

theorem agree_conditional (p q : Pos) : Agree (SameUpTo Node.bare)
    (Parser.conditional (n + 1) p s) (Parser.conditional (n + 1) q s') := by
  simp only [Parser.conditional]
  -- What follows the condition, and `then` if it is there.
  have hbranches : ∀ {c c' : Node} {s s' : Stream}, c.bare = c'.bare → s.Alike s' →
      Agree (SameUpTo Node.bare)
        (Parser.expression n s >>= fun x => x.2.peek >>= fun t =>
          if t.lexeme = .keyword .elseWord then
            Parser.expression n x.2.tail >>= fun y => pure (.branch p c x.1 y.1, y.2)
          else pure (.branch p c x.1 .missing, x.2))
        (Parser.expression n s' >>= fun x => x.2.peek >>= fun t =>
          if t.lexeme = .keyword .elseWord then
            Parser.expression n x.2.tail >>= fun y => pure (.branch q c' x.1 y.1, y.2)
          else pure (.branch q c' x.1 .missing, x.2)) := by
    intro c c' s s' hc hs
    refine (ih.expression hs).bind fun a b h => ?_
    refine h.2.peek.bind fun t u htu => ?_
    rw [← htu]
    split_ifs
    · refine (ih.expression h.2.tail).bind fun a' b' h' => ⟨?_, h'.2⟩
      simp only [Node.bare, hc, h.1, h'.1]
    · refine ⟨?_, h.2⟩
      simp only [Node.bare, hc, h.1]
  refine (ih.expression hs).bind fun a b h => ?_
  refine h.2.peek.bind fun t u htu => ?_
  rw [← htu]
  split_ifs
  · exact hbranches h.1 h.2
  · exact (h.2.expect _).bind fun s s' hs => hbranches h.1 hs

theorem agree_definition : Agree (SameUpTo fun b => (b.1, b.2.bare))
    (Parser.definition (n + 1) s) (Parser.definition (n + 1) s') := by
  simp only [Parser.definition]
  refine (agree_name hs).bind fun x y hx => ?_
  refine hx.2.peek.bind fun t u h => ?_
  rw [← h]
  split_ifs
  · refine (ih.expression hx.2.tail).bind fun a b h => ?_
    exact ⟨Prod.ext hx.1 h.1, h.2⟩
  · exact ⟨Prod.ext hx.1 rfl, hx.2⟩

end

theorem agrees (n : Nat) : Agrees n := by
  induction n with
  | zero =>
    exact {
      expression := fun hs => hs.unexpected _
      chain := fun _ _ _ _ hs => hs.unexpected _
      calls := fun _ hs => hs.unexpected _
      operand := fun hs => hs.unexpected _
      primary := fun hs => hs.unexpected _
      conditional := fun _ _ _ _ hs => hs.unexpected _
      definition := fun hs => hs.unexpected _ }
  | succ n ih =>
    exact {
      expression := fun hs => agree_expression ih hs
      chain := fun level _ _ hleft hs => agree_chain ih hs level hleft
      calls := fun hcallee hs => agree_calls ih hs hcallee
      operand := fun hs => agree_operand ih hs
      primary := fun hs => agree_primary ih hs
      conditional := fun p q _ _ hs => agree_conditional ih hs p q
      definition := fun hs => agree_definition ih hs }

theorem agree_statements (n : Nat) {s s' : Stream} (hs : s.Alike s') :
    Agree (fun es es' => es.map Node.bare = es'.map Node.bare) (Parser.statements n s)
      (Parser.statements n s') := by
  induction n generalizing s s' with
  | zero => exact hs.unexpected _
  | succ n ih =>
    have hdepth : Parser.depth s = Parser.depth s' := by rw [Parser.depth, Parser.depth, hs.length]
    simp only [Parser.statements, ← hdepth]
    refine hs.peek.bind fun t u h => ?_
    rw [← h]
    split_ifs
    · exact rfl
    · refine ((agrees _).expression hs).bind fun a b h => ?_
      refine h.2.peek.bind fun t u htu => ?_
      rw [← htu]
      split_ifs
      · exact congrArg (fun e => [e]) h.1
      · refine (h.2.expect _).bind fun s s' hs => ?_
        exact (ih hs).bind fun es es' hes => congrArg₂ List.cons h.1 hes

/-- Streams that are alike are parsed to the same program, except for positions, or refused for the
same fault. -/
theorem agree_ofStream {s s' : Stream} (hs : s.Alike s') :
    Agree (fun p q => p.toNode.bare = q.toNode.bare) (Program.ofStream s)
      (Program.ofStream s') := by
  unfold Program.ofStream
  rw [← hs.length]
  refine hs.peek.bind fun t u _ => ?_
  refine (agree_statements _ hs).bind fun es es' hes => ?_
  show Node.bare (.program t.pos es) = Node.bare (.program u.pos es')
  simp only [Node.bare, Node.bareAll_eq, hes]

end Mycel
