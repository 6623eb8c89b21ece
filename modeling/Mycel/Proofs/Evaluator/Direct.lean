import Mathlib.Tactic.SplitIfs
import Mycel.Error.Fault
import Mycel.Machine.World
import Mycel.Syntax.Printer
import Mycel.Value.Operation

/-!
# A direct evaluator

What a program means, without steps, continuations or budgets: `Direct.evaluate` follows the syntax
tree and hands the world on from one part to the next. It need not end, so it is given a depth: how
far evaluations may be nested in one another. It has no outcome if that is not enough, and a greater
depth does not change the outcome that it has (`evaluate_of_le`). It knows the builtins that write
and no others.

The order of things is what a reader of the tree expects. An assignment checks its target before it
evaluates the value. The left operand comes before the right one, the callee before the arguments,
and these come from left to right, before it matters whether the callee can be called. The first
error ends everything.
-/

namespace Mycel.Direct

/-- What an evaluation comes to when it ends: a result, and the world that it leaves. -/
abbrev Outcome (α : Type) := Except Error α × World

/-- An evaluation starts in a world, and may come to an outcome. -/
def Evaluation (α : Type) := World → Option (Outcome α)

namespace Evaluation

variable {α β : Type}

/-- An evaluation that always comes to an outcome. -/
def of (f : World → Outcome α) : Evaluation α := fun w => some (f w)

/-- Goes on with the value of an evaluation, and not at all after an error. -/
def andThen (x : Evaluation α) (f : α → Evaluation β) : Evaluation β := fun w =>
  match x w with
  | some (.ok v, w) => f v w
  | some (.error e, w) => some (.error e, w)
  | none => none

instance : Monad Evaluation where
  pure v := of fun w => (.ok v, w)
  bind := andThen

variable {x : Evaluation α} {f : α → Evaluation β} {w w₁ : World} {v : α} {e : Error}

theorem bind_ok (h : x w = some (.ok v, w₁)) : (x >>= f) w = f v w₁ := by
  change x.andThen f w = _
  simp only [andThen, h]

theorem bind_error (h : x w = some (.error e, w₁)) : (x >>= f) w = some (.error e, w₁) := by
  change x.andThen f w = _
  simp only [andThen, h]

theorem bind_none (h : x w = none) : (x >>= f) w = none := by
  change x.andThen f w = _
  simp only [andThen, h]

/-- Where an outcome comes from: from the first part if that is an error, else from the second. -/
theorem bind_cases {o : Outcome β} (h : (x >>= f) w = some o) :
    (∃ e w₁, x w = some (.error e, w₁) ∧ o = (.error e, w₁)) ∨
      ∃ v w₁, x w = some (.ok v, w₁) ∧ f v w₁ = some o := by
  cases hx : x w with
  | none =>
    rw [bind_none hx] at h
    cases h
  | some r =>
    obtain ⟨result, w₁⟩ := r
    cases result with
    | error e =>
      rw [bind_error hx] at h
      exact .inl ⟨e, w₁, rfl, (Option.some.inj h).symm⟩
    | ok v =>
      rw [bind_ok hx] at h
      exact .inr ⟨v, w₁, rfl, h⟩

/-- An evaluation comes to an outcome. -/
def Ends (x : Evaluation α) (w : World) : Prop := ∃ o, x w = some o

theorem Ends.bind (h : x.Ends w) (hf : ∀ v w₁, x w = some (.ok v, w₁) → (f v).Ends w₁) :
    (x >>= f).Ends w := by
  obtain ⟨⟨result, w₁⟩, hx⟩ := h
  cases result with
  | error e => exact ⟨_, bind_error hx⟩
  | ok v =>
    obtain ⟨o, ho⟩ := hf v w₁ hx
    exact ⟨o, (bind_ok hx).trans ho⟩

end Evaluation

/-- An error, at a position. -/
def fail (pos : Pos) (fault : Fault) (w : World) : Outcome Value :=
  (.error (fault.error pos), w)

/-- Writes a text for a primitive, whose value is false. -/
def write (primitive : String) (t : Text) (w : World) : Outcome Value :=
  match w.output.write? t with
  | some output => (.ok (.bool false), { w with output })
  | none => fail Pos.none (.writeFailed (bytes primitive) w.output.reason) w

/-- Reads a name. -/
def read (scope : ScopeId) (pos : Pos) (name : Text) (w : World) : Outcome Value :=
  match w.heap.get? scope name with
  | some v => (.ok v, w)
  | none => fail pos (.undefinedVariable name) w

/-- Gives a name a value, which is also the value of the assignment. -/
def assign (scope : ScopeId) (pos : Pos) (name : Text) (v : Value) (w : World) : Outcome Value :=
  match w.heap.set? scope name v with
  | some heap => (.ok v, { w with heap })
  | none => fail pos (.undefinedVariable name) w

/-- Makes a function value. -/
def close (scope : ScopeId) (name : Option Text) (params : List Text) (body : Node) (w : World) :
    Outcome Value :=
  let made := w.makeClosure scope name params body
  (.ok made.2, made.1)

/-! ## The parts of a program -/

section

variable (evaluate : ScopeId → Node → Evaluation Value)

/-- The value of a node that may be missing, and is false then. -/
def orFalse (scope : ScopeId) (node : Node) : Evaluation Value :=
  if node.isPresent then evaluate scope node else return .bool false

/-- The last value of a sequence; if there are no nodes, the value before them. -/
def sequence (scope : ScopeId) : Value → List Node → Evaluation Value
  | last, [] => return last
  | _, node :: rest => do
    let v ← evaluate scope node
    sequence scope v rest

/-- The values of the arguments of a call. -/
def arguments (scope : ScopeId) : List Node → Evaluation (List Value)
  | [] => return []
  | node :: rest => do
    let v ← evaluate scope node
    let vs ← arguments scope rest
    return v :: vs

/-- The value of a body inside bindings, each of which is a scope of its own. -/
def bindings (scope : ScopeId) : List (Text × Node) → Node → Evaluation Value
  | [], body => evaluate scope body
  | (name, definition) :: rest, body => do
    let v ← orFalse evaluate scope definition
    fun w =>
      let inside := w.bindIn scope name v
      bindings inside.2 rest body inside.1

/-- The value of a call, at a position. -/
def call (pos : Pos) : Value → List Value → Evaluation Value
  | .closure c, args => fun w =>
    let inside := w.enter c args
    evaluate inside.2 c.body inside.1
  | .builtin _ _ .print, args =>
    .of (write "print" ((args.headD (.bool false)).inspect ++ bytes "\n"))
  | .builtin _ _ .println, args =>
    .of (write "println" ((args.headD (.bool false)).inspect ++ bytes "\n\n"))
  | .builtin _ _ _, _ => fun _ => none
  | f, _ => .of (fail pos (.notCallable f.kind f.inspect))

/-- The value of a node whose parts have the values that `evaluate` gives them. -/
def value (scope : ScopeId) : Node → Evaluation Value
  | .number _ x => return .number x
  | .string _ t => return .string t
  | .bool _ b => return .bool b
  | .identifier pos name => .of (read scope pos name)
  | .assign _ (.identifier pos name) definition => do
    let v ← evaluate scope definition
    .of (assign scope pos name v)
  | .assign pos target _ => .of (fail pos (.assignTarget target.display))
  | .binary pos operator left right => do
    let a ← evaluate scope left
    let b ← evaluate scope right
    .of fun w => ((operator.apply a b).mapError (·.error pos), w)
  | .branch _ condition whenTrue whenFalse => do
    let v ← evaluate scope condition
    if v.isTruthy then
      if whenTrue.isPresent then evaluate scope whenTrue else return v
    else orFalse evaluate scope whenFalse
  | .lambda _ name params body => .of (close scope name params body)
  | .program _ body => sequence evaluate scope (.bool false) body
  | .call pos callee args => do
    let f ← evaluate scope callee
    let vs ← arguments evaluate scope args
    call evaluate pos f vs
  | .binding _ bs body => bindings evaluate scope bs body
  | .missing => .of (fail Pos.none .missingNode)

end

/-- The value of a node, with evaluations nested no deeper than `depth`. -/
def evaluate : Nat → ScopeId → Node → Evaluation Value
  | 0 => fun _ _ _ => none
  | depth + 1 => value (evaluate depth)

/-! ## Greater depth -/

/-- Whatever comes to an outcome in one evaluation does so in the other. -/
def Evaluation.Within {α : Type} (x y : Evaluation α) : Prop := ∀ w o, x w = some o → y w = some o

namespace Evaluation.Within

variable {α β : Type} {x y : Evaluation α} {f g : α → Evaluation β}

theorem refl (x : Evaluation α) : x.Within x := fun _ _ h => h

theorem bind (h : x.Within y) (hf : ∀ v, (f v).Within (g v)) : (x >>= f).Within (y >>= g) := by
  intro w o hxf
  obtain ⟨e, w₁, hx, rfl⟩ | ⟨v, w₁, hx, hfv⟩ := bind_cases hxf
  · exact bind_error (h w _ hx)
  · rw [bind_ok (h w _ hx)]
    exact hf v w₁ o hfv

end Evaluation.Within

section

variable {e e' : ScopeId → Node → Evaluation Value}
  (h : ∀ scope node, (e scope node).Within (e' scope node))

include h

theorem within_orFalse (scope : ScopeId) (node : Node) :
    (orFalse e scope node).Within (orFalse e' scope node) := by
  unfold orFalse
  split_ifs
  · exact h scope node
  · exact .refl _

theorem within_sequence (scope : ScopeId) (last : Value) (nodes : List Node) :
    (sequence e scope last nodes).Within (sequence e' scope last nodes) := by
  induction nodes generalizing last with
  | nil => exact .refl _
  | cons node rest ih => exact .bind (h scope node) fun v => ih v

theorem within_arguments (scope : ScopeId) (nodes : List Node) :
    (arguments e scope nodes).Within (arguments e' scope nodes) := by
  induction nodes with
  | nil => exact .refl _
  | cons node rest ih => exact .bind (h scope node) fun v => .bind ih fun vs => .refl _

theorem within_bindings (scope : ScopeId) (bs : List (Text × Node)) (body : Node) :
    (bindings e scope bs body).Within (bindings e' scope bs body) := by
  induction bs generalizing scope with
  | nil => exact h scope body
  | cons b rest ih =>
    obtain ⟨name, definition⟩ := b
    exact .bind (within_orFalse h scope definition) fun v w => ih _ _

theorem within_call (pos : Pos) (f : Value) (args : List Value) :
    (call e pos f args).Within (call e' pos f args) := by
  cases f with
  | closure c => exact fun w => h _ _ _
  | builtin id name action => cases action <;> exact .refl _
  | _ => exact .refl _

theorem within_value (scope : ScopeId) (node : Node) :
    (value e scope node).Within (value e' scope node) := by
  cases node with
  | number | string | bool | identifier | lambda | missing => exact .refl _
  | assign pos target definition =>
    cases target with
    | identifier pos name => exact .bind (h scope definition) fun v => .refl _
    | _ => exact .refl _
  | binary pos operator left right =>
    exact .bind (h scope left) fun a => .bind (h scope right) fun b => .refl _
  | branch pos condition whenTrue whenFalse =>
    refine .bind (h scope condition) fun v => ?_
    split_ifs
    · exact h scope whenTrue
    · exact .refl _
    · exact within_orFalse h scope whenFalse
  | program pos body => exact within_sequence h scope _ body
  | call pos callee args =>
    exact .bind (h scope callee) fun f => .bind (within_arguments h scope args) fun vs =>
      within_call h pos f vs
  | binding pos bs body => exact within_bindings h scope bs body

end

theorem within_evaluate_succ (depth : Nat) (scope : ScopeId) (node : Node) :
    (evaluate depth scope node).Within (evaluate (depth + 1) scope node) := by
  induction depth generalizing scope node with
  | zero =>
    intro w o h
    cases h
  | succ depth ih => exact within_value ih scope node

/-- A greater depth does not change an outcome. -/
theorem evaluate_of_le {depth depth' : Nat} (hle : depth ≤ depth') {scope : ScopeId} {node : Node}
    {w : World} {o : Outcome Value} (h : evaluate depth scope node w = some o) :
    evaluate depth' scope node w = some o := by
  induction hle with
  | refl => exact h
  | step _ ih => exact within_evaluate_succ _ scope node w o ih

end Mycel.Direct
