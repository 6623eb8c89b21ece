import Mycel.Proofs.Evaluator.Correspondence
import Mycel.Proofs.Machine.Endings

/-!
# One program after another

Expressions can be run as one program, or some of them as a program and the others as another one,
in the same scope. If the first program fails, the second one is not run; apart from that the two
ways come to the same. `Store.endsWith_append_iff` says so, for machines and budgets of any kind.

The direct evaluator makes this plain (`Direct.sequence_append`). What remains is that an evaluation
does not look at what happened before it, except in the scopes: not at the log, and not at what has
been written (`Direct.ignores_evaluate`).
-/

namespace Mycel

/-! ## What an evaluation does not look at -/

/-- The world with another log and another reason to stop, and with writes before its own. -/
def World.following (w : World) (log : Log) (canceled : Option Text) (chunks : List Text) : World :=
  { w with log, canceled, output := { w.output with chunks := w.output.chunks ++ chunks } }

namespace World

variable (w : World) (log : Log) (canceled : Option Text) (chunks : List Text)

theorem makeClosure_following (scope : ScopeId) (name : Option Text) (params : List Text)
    (body : Node) : (w.following log canceled chunks).makeClosure scope name params body =
      ((w.makeClosure scope name params body).1.following log canceled chunks,
        (w.makeClosure scope name params body).2) := by
  cases name <;> rfl

theorem bindParams_following (scope : ScopeId) (params : List Text) (args : List Value) :
    bindParams scope (w.following log canceled chunks) params args =
      (bindParams scope w params args).following log canceled chunks := by
  induction params generalizing w args with
  | nil => rfl
  | cons x xs ih =>
    cases args with
    | nil => exact ih (w.define scope x (.bool false)) []
    | cons v vs => exact ih (w.define scope x v) vs

theorem enter_following (c : Closure) (args : List Value) :
    (w.following log canceled chunks).enter c args =
      ((w.enter c args).1.following log canceled chunks, (w.enter c args).2) :=
  Prod.ext (bindParams_following { w with heap := w.heap.extend c.scope } log canceled chunks
    w.heap.next c.params args) rfl

end World

namespace Direct

variable (log : Log) (canceled : Option Text) (chunks : List Text)

/-- An outcome, as it is after a log, a reason to stop and some writes. -/
def Outcome.following {α : Type} (o : Outcome α) : Outcome α :=
  (o.1, o.2.following log canceled chunks)

/-- An evaluation comes to the same whatever was logged and written before. -/
def Evaluation.Ignores {α : Type} (x : Evaluation α) : Prop :=
  ∀ w : World, x (w.following log canceled chunks) =
    (x w).map (Outcome.following log canceled chunks)

variable {log canceled chunks}

theorem Evaluation.Ignores.bind {α β : Type} {x : Evaluation α} {f : α → Evaluation β}
    (hx : x.Ignores log canceled chunks) (hf : ∀ v, (f v).Ignores log canceled chunks) :
    (x >>= f).Ignores log canceled chunks := by
  intro w
  have hxw := hx w
  cases h : x w with
  | none =>
    rw [h] at hxw
    rw [bind_none h, bind_none hxw]
    rfl
  | some o =>
    obtain ⟨result, w₁⟩ := o
    rw [h] at hxw
    cases result with
    | error e =>
      rw [bind_error h, bind_error hxw]
      rfl
    | ok v =>
      rw [bind_ok h, bind_ok hxw]
      exact hf v w₁

theorem ignores_write (primitive : String) (t : Text) :
    (Evaluation.of (write primitive t)).Ignores log canceled chunks := by
  intro w
  obtain ⟨heap, ⟨written, room, reason⟩⟩ := w
  match room with
  | none | some 0 | some (_ + 1) => rfl

theorem ignores_read (scope : ScopeId) (pos : Pos) (name : Text) :
    (Evaluation.of (read scope pos name)).Ignores log canceled chunks := by
  intro w
  simp only [Evaluation.of, read, World.following]
  cases w.heap.get? scope name <;> rfl

theorem ignores_assign (scope : ScopeId) (pos : Pos) (name : Text) (v : Value) :
    (Evaluation.of (assign scope pos name v)).Ignores log canceled chunks := by
  intro w
  simp only [Evaluation.of, assign, World.following]
  cases w.heap.set? scope name v <;> rfl

section

variable {e : ScopeId → Node → Evaluation Value}
  (h : ∀ scope node, (e scope node).Ignores log canceled chunks)

include h

theorem ignores_orFalse (scope : ScopeId) (node : Node) :
    (orFalse e scope node).Ignores log canceled chunks := by
  unfold orFalse
  split_ifs
  · exact h scope node
  · exact fun _ => rfl

theorem ignores_sequence (scope : ScopeId) (last : Value) (nodes : List Node) :
    (sequence e scope last nodes).Ignores log canceled chunks := by
  induction nodes generalizing last with
  | nil => exact fun _ => rfl
  | cons node rest ih => exact .bind (h scope node) fun v => ih v

theorem ignores_arguments (scope : ScopeId) (nodes : List Node) :
    (arguments e scope nodes).Ignores log canceled chunks := by
  induction nodes with
  | nil => exact fun _ => rfl
  | cons node rest ih => exact .bind (h scope node) fun v => .bind ih fun vs _ => rfl

theorem ignores_bindings (scope : ScopeId) (bs : List (Text × Node)) (body : Node) :
    (bindings e scope bs body).Ignores log canceled chunks := by
  induction bs generalizing scope with
  | nil => exact h scope body
  | cons b rest ih =>
    obtain ⟨name, definition⟩ := b
    refine .bind (ignores_orFalse h scope definition) fun v w => ?_
    exact ih (w.bindIn scope name v).2 (w.bindIn scope name v).1

theorem ignores_call (pos : Pos) (f : Value) (args : List Value) :
    (call e pos f args).Ignores log canceled chunks := by
  cases f with
  | closure c =>
    intro w
    show e _ c.body ((w.following log canceled chunks).enter c args).1 = _
    rw [World.enter_following]
    exact h (w.enter c args).2 c.body (w.enter c args).1
  | builtin id name action =>
    cases action with
    | print | println => exact ignores_write _ _
    | _ => exact fun _ => rfl
  | _ => exact fun _ => rfl

theorem ignores_value (scope : ScopeId) (node : Node) :
    (value e scope node).Ignores log canceled chunks := by
  cases node with
  | number | string | bool | missing => exact fun _ => rfl
  | identifier pos name => exact ignores_read scope pos name
  | lambda pos name params body =>
    intro w
    simp only [value, Evaluation.of, close, World.makeClosure_following]
    rfl
  | assign pos target definition =>
    cases target with
    | identifier pos name =>
      exact .bind (h scope definition) fun v => ignores_assign scope pos name v
    | _ => exact fun _ => rfl
  | binary pos operator left right =>
    exact .bind (h scope left) fun a => .bind (h scope right) fun b _ => rfl
  | branch pos condition whenTrue whenFalse =>
    refine .bind (h scope condition) fun v => ?_
    split_ifs
    · exact h scope whenTrue
    · exact fun _ => rfl
    · exact ignores_orFalse h scope whenFalse
  | program pos body => exact ignores_sequence h scope _ body
  | call pos callee args =>
    exact .bind (h scope callee) fun f => .bind (ignores_arguments h scope args) fun vs =>
      ignores_call h pos f vs
  | binding pos bs body => exact ignores_bindings h scope bs body

end

theorem ignores_evaluate (depth : Nat) (scope : ScopeId) (node : Node) :
    (evaluate depth scope node).Ignores log canceled chunks := by
  induction depth generalizing scope node with
  | zero => exact fun _ => rfl
  | succ depth ih => exact ignores_value ih scope node

/-- The direct evaluator comes to an outcome. -/
def Evaluates (scope : ScopeId) (node : Node) (w : World) (o : Outcome Value) : Prop :=
  ∃ depth, evaluate depth scope node w = some o

end Direct

/-- The world when what has been written is taken away. -/
def World.takeOutput (w : World) : World := { w with output := { w.output with chunks := [] } }

theorem World.eq_following {v w : World} (h : v.unlogged = w.unlogged) :
    w = v.takeOutput.following w.log w.canceled w.output.chunks := by
  obtain ⟨heap, ⟨chunks, room, reason⟩, log⟩ := v
  obtain ⟨heap', ⟨chunks', room', reason'⟩, log'⟩ := w
  simp only [unlogged, World.mk.injEq, Output.mk.injEq] at h
  simp [takeOutput, following, h]

namespace Direct

variable {scope : ScopeId} {node : Node} {result : Except Error Value} {v w w' : World}

theorem evaluates_takeOutput_iff (h : v.unlogged = w.unlogged) :
    Evaluates scope node w (result, w') ↔ ∃ v', Evaluates scope node v.takeOutput (result, v') ∧
      w' = v'.following w.log w.canceled w.output.chunks := by
  have hignores : ∀ depth, evaluate depth scope node w =
      (evaluate depth scope node v.takeOutput).map
        (Outcome.following w.log w.canceled w.output.chunks) := by
    intro depth
    have hevaluate : (evaluate depth scope node).Ignores w.log w.canceled w.output.chunks :=
      ignores_evaluate depth scope node
    have hw := hevaluate v.takeOutput
    rwa [← World.eq_following h] at hw
  constructor
  · rintro ⟨depth, hdepth⟩
    rw [hignores] at hdepth
    obtain ⟨⟨result', v'⟩, hv', heq⟩ := Option.map_eq_some_iff.1 hdepth
    cases heq
    exact ⟨v', ⟨depth, hv'⟩, rfl⟩
  · rintro ⟨v', ⟨depth, hv'⟩, rfl⟩
    refine ⟨depth, ?_⟩
    rw [hignores, hv']
    rfl

/-- An evaluation gives no reason to stop. -/
theorem Evaluates.canceled (h : Evaluates scope node w (result, w')) :
    w'.canceled = w.canceled := by
  obtain ⟨v', -, rfl⟩ := (evaluates_takeOutput_iff rfl).1 h
  rfl

/-! ## Sequences in two parts -/

theorem Evaluation.bind_assoc {α β γ : Type} (x : Evaluation α) (f : α → Evaluation β)
    (g : β → Evaluation γ) : x >>= f >>= g = x >>= fun v => f v >>= g := by
  funext w
  cases h : x w with
  | none => rw [bind_none h, bind_none (bind_none h)]
  | some o =>
    obtain ⟨result, w₁⟩ := o
    cases result with
    | error e => rw [bind_error h, bind_error (bind_error h)]
    | ok v =>
      rw [bind_ok h]
      change Evaluation.andThen _ _ _ = Evaluation.andThen _ _ _
      simp only [andThen, bind_ok h]

theorem sequence_append (e : ScopeId → Node → Evaluation Value) (scope : ScopeId) (last : Value)
    (xs ys : List Node) : sequence e scope last (xs ++ ys) =
      sequence e scope last xs >>= fun v => sequence e scope v ys := by
  induction xs generalizing last with
  | nil => rfl
  | cons node rest ih =>
    show (e scope node >>= fun v => sequence e scope v (rest ++ ys)) =
      (e scope node >>= fun v => sequence e scope v rest) >>= fun v => sequence e scope v ys
    rw [Evaluation.bind_assoc]
    simp only [ih]

/-- The value before a sequence counts only if there is nothing in it. -/
theorem sequence_last {ys : List Node} (h : ys ≠ []) (e : ScopeId → Node → Evaluation Value)
    (scope : ScopeId) (last last' : Value) :
    sequence e scope last ys = sequence e scope last' ys := by
  cases ys with
  | nil => exact absurd rfl h
  | cons y ys => rfl

theorem evaluates_program_iff {pos : Pos} {xs : List Node} {o : Outcome Value} :
    Evaluates scope (.program pos xs) w o ↔
      ∃ depth, sequence (evaluate depth) scope (.bool false) xs w = some o := by
  constructor
  · rintro ⟨depth, h⟩
    cases depth with
    | zero => cases h
    | succ depth => exact ⟨depth, h⟩
  · rintro ⟨depth, h⟩
    exact ⟨depth + 1, h⟩

theorem sequence_of_le {depth depth' : Nat} (hle : depth ≤ depth') {last : Value} {xs : List Node}
    {o : Outcome Value} (h : sequence (evaluate depth) scope last xs w = some o) :
    sequence (evaluate depth') scope last xs w = some o :=
  within_sequence (fun _ _ _ _ => evaluate_of_le hle) scope last xs w o h

theorem evaluates_append_iff (pos pos₁ pos₂ : Pos) (xs ys : List Node) {o : Outcome Value} :
    Evaluates scope (.program pos (xs ++ ys)) w o ↔
      Evaluates scope (.program pos₁ xs) w o ∧ (ys = [] ∨ ∃ e, o.1 = .error e) ∨
      ∃ v w₁, Evaluates scope (.program pos₁ xs) w (.ok v, w₁) ∧ ys ≠ [] ∧
        Evaluates scope (.program pos₂ ys) w₁ o := by
  simp only [evaluates_program_iff]
  constructor
  · rintro ⟨depth, h⟩
    rw [sequence_append] at h
    obtain ⟨e, w₁, hxs, rfl⟩ | ⟨v, w₁, hxs, hys⟩ := Evaluation.bind_cases h
    · exact .inl ⟨⟨depth, hxs⟩, .inr ⟨e, rfl⟩⟩
    · by_cases hnil : ys = []
      · subst hnil
        cases hys
        exact .inl ⟨⟨depth, hxs⟩, .inl rfl⟩
      · rw [sequence_last hnil _ _ v (.bool false)] at hys
        exact .inr ⟨v, w₁, ⟨depth, hxs⟩, hnil, depth, hys⟩
  · rintro (⟨⟨depth, hxs⟩, hstop⟩ | ⟨v, w₁, ⟨depth, hxs⟩, hnil, depth', hys⟩)
    · refine ⟨depth, ?_⟩
      rw [sequence_append]
      obtain ⟨result, w₁⟩ := o
      cases result with
      | error e => exact Evaluation.bind_error hxs
      | ok v =>
        rcases hstop with rfl | ⟨e, he⟩
        · exact Evaluation.bind_ok hxs
        · cases he
    · refine ⟨max depth depth', ?_⟩
      rw [sequence_append, Evaluation.bind_ok (sequence_of_le (Nat.le_max_left ..) hxs),
        sequence_last hnil _ _ v (.bool false)]
      exact sequence_of_le (Nat.le_max_right ..) hys

end Direct

/-! ## Runs in two parts -/

theorem Output.text_append (o : Output) (chunks : List Text) :
    Output.text { o with chunks := o.chunks ++ chunks } = chunks.reverse.flatten ++ o.text := by
  simp [Output.text]

namespace Store

/-- The store when what has been written is taken away. -/
def takeOutput (st : Store) : Store := { st with world := st.world.takeOutput }

/-- What can be told of a run that has ended: its result, the scopes that it leaves, and what has
been written. -/
structure Ending where
  result : Except Error Value
  heap : Heap
  written : Text

/-- Running a node on machine `m` comes to an end, and this is what can be told of it. -/
def EndsWith (st : Store) (m : Nat) (node : Node) (scope : ScopeId) (o : Ending) : Prop :=
  ∃ st', st.Ends m node scope st' o.result ∧ st'.world.heap = o.heap ∧
    st'.world.output.text = o.written

variable {st st₁ : Store} {m m₁ m₂ : Nat} {node : Node} {scope : ScopeId}
  {result : Except Error Value} {w : World}

theorem Ends.evaluates (hs : st.Only Action.Primitive) (hm : st.Ready m)
    (hcanceled : st.world.canceled = none) (h : st.Ends m node scope st₁ result) :
    ∃ w, Direct.Evaluates scope node st.world (result, w) ∧ st₁.world.unlogged = w.unlogged := by
  obtain ⟨n, hn⟩ := h
  have hfree := unlimited_of_ready hs hm hcanceled node scope
  obtain ⟨j, hj, -⟩ := (hfree.runWithin_iff (Action.primitive_confined m)).1 ⟨n, st₁, hn, rfl, rfl⟩
  rw [State.iterate_execute_erase] at hj
  cases hi : State.iterate State.execute j (st.start m node scope) with
  | running s =>
    rw [hi] at hj
    cases hj
  | finished st₂ result₂ =>
    rw [hi] at hj
    obtain ⟨herase, rfl⟩ := Progress.finished.inj hj
    obtain ⟨⟨result₃, w⟩, hw⟩ := evaluate_of_finishes hs hi
    obtain ⟨i, st₃, hi₃, hworld⟩ := finishes_unlogged m hw
    obtain ⟨rfl, rfl⟩ := State.iterate_finished_unique hi hi₃
    exact ⟨w, ⟨j, hw⟩, (congrArg Store.world herase).symm.trans hworld⟩

theorem ends_of_evaluates (hs : st.Only Action.Primitive) (hm : st.Ready m)
    (hcanceled : st.world.canceled = none) (h : Direct.Evaluates scope node st.world (result, w)) :
    ∃ st₁, st.Ends m node scope st₁ result ∧ st₁.world.unlogged = w.unlogged := by
  obtain ⟨depth, hdepth⟩ := h
  obtain ⟨j, st₂, hj, hworld⟩ := finishes_unlogged m hdepth
  have hend := State.iterate_execute_erase j (st.start m node scope)
  rw [hj] at hend
  have hfree := unlimited_of_ready hs hm hcanceled node scope
  obtain ⟨n, st₁, hn, herase, -⟩ :=
    (hfree.runWithin_iff (Action.primitive_confined m)).2 ⟨j, hend, rfl⟩
  exact ⟨st₁, ⟨n, hn⟩, (congrArg Store.world herase).trans hworld⟩

theorem endsWith_iff_evaluates (hs : st.Only Action.Primitive) (hm : st.Ready m)
    (hcanceled : st.world.canceled = none) {o : Ending} :
    st.EndsWith m node scope o ↔ ∃ w, Direct.Evaluates scope node st.world (o.result, w) ∧
      w.heap = o.heap ∧ w.output.text = o.written := by
  constructor
  · rintro ⟨st₁, hends, hheap, hwritten⟩
    obtain ⟨w, hw, hworld⟩ := hends.evaluates hs hm hcanceled
    have hheap' : st₁.world.heap = w.heap := congrArg (·.heap) hworld
    have houtput : st₁.world.output = w.output := congrArg (·.output) hworld
    exact ⟨w, hw, hheap' ▸ hheap, houtput ▸ hwritten⟩
  · rintro ⟨w, hw, hheap, hwritten⟩
    obtain ⟨st₁, hends, hworld⟩ := ends_of_evaluates hs hm hcanceled hw
    have hheap' : st₁.world.heap = w.heap := congrArg (·.heap) hworld
    have houtput : st₁.world.output = w.output := congrArg (·.output) hworld
    exact ⟨st₁, hends, hheap' ▸ hheap, houtput ▸ hwritten⟩

/-- What a second run comes to after a first one, in terms of the world that the first one leaves
to the direct evaluator. -/
theorem endsWith_takeOutput_iff {w₁ : World} (hs : st₁.Only Action.Primitive) (hm : st₁.Ready m)
    (hcanceled : w₁.canceled = none) (hworld : st₁.world.unlogged = w₁.unlogged) {o : Ending} :
    (∃ o₂, st₁.takeOutput.EndsWith m node scope o₂ ∧
        o = { o₂ with written := st₁.world.output.text ++ o₂.written }) ↔
      ∃ w₂, Direct.Evaluates scope node w₁ (o.result, w₂) ∧ w₂.heap = o.heap ∧
        w₂.output.text = o.written := by
  have hs' : st₁.takeOutput.Only Action.Primitive := ⟨⟨hs.world.heap, hs.world.host⟩, hs.buffers⟩
  have hcanceled' : st₁.takeOutput.world.canceled = none :=
    Eq.trans (congrArg (·.canceled) hworld) hcanceled
  have houtput : st₁.world.output = w₁.output := congrArg (·.output) hworld
  -- What was written in the first run stands before what was written in the second one.
  have htext : ∀ v : World, (v.following w₁.log w₁.canceled w₁.output.chunks).output.text =
      st₁.world.output.text ++ v.output.text := by
    intro v
    rw [houtput]
    exact v.output.text_append w₁.output.chunks
  simp only [endsWith_iff_evaluates hs' hm hcanceled']
  constructor
  · rintro ⟨o₂, ⟨v, hv, hheap, hwritten⟩, rfl⟩
    refine ⟨_, (Direct.evaluates_takeOutput_iff hworld).2 ⟨v, hv, rfl⟩, hheap, ?_⟩
    rw [htext, hwritten]
  · rintro ⟨w₂, hw₂, hheap, hwritten⟩
    obtain ⟨v, hv, rfl⟩ := (Direct.evaluates_takeOutput_iff hworld).1 hw₂
    refine ⟨⟨o.result, o.heap, v.output.text⟩, ⟨v, hv, hheap, rfl⟩, ?_⟩
    rw [← htext, hwritten]

/-- Expressions can be run as one program or as two, one after the other in the same scope. If the
first of the two fails or there is nothing in the second, both ways come to what the first one comes
to; otherwise to what the second one comes to after it. Every run may have a machine and a budget of
its own. -/
theorem endsWith_append_iff (hs : st.Only Action.Primitive) (hcanceled : st.world.canceled = none)
    (hm : st.Ready m) (hm₁ : st.Ready m₁) (hm₂ : st.Ready m₂) (pos pos₁ pos₂ : Pos)
    (xs ys : List Node) (scope : ScopeId) (o : Ending) :
    st.EndsWith m (.program pos (xs ++ ys)) scope o ↔
      st.EndsWith m₁ (.program pos₁ xs) scope o ∧ (ys = [] ∨ ∃ e, o.result = .error e) ∨
      ∃ st₁ v, st.Ends m₁ (.program pos₁ xs) scope st₁ (.ok v) ∧ ys ≠ [] ∧
        ∃ o₂, st₁.takeOutput.EndsWith m₂ (.program pos₂ ys) scope o₂ ∧
          o = { o₂ with written := st₁.world.output.text ++ o₂.written } := by
  have hprovides := fun m => (Action.primitive_confined m).toProvides
  rw [endsWith_iff_evaluates hs hm hcanceled, endsWith_iff_evaluates hs hm₁ hcanceled]
  simp only [Direct.evaluates_append_iff pos pos₁ pos₂ xs ys]
  constructor
  · rintro ⟨w, ⟨hxs, hstop⟩ | ⟨v, w₁, hxs, hnil, hys⟩, ho⟩
    · exact .inl ⟨⟨w, hxs, ho⟩, hstop⟩
    · obtain ⟨st₁, hends, hworld⟩ := ends_of_evaluates hs hm₁ hcanceled hxs
      refine .inr ⟨st₁, v, hends, hnil, ?_⟩
      exact (endsWith_takeOutput_iff (hends.only hprovides hs) (hends.ready hm₂)
        (hxs.canceled.trans hcanceled) hworld).2 ⟨w, hys, ho⟩
  · rintro (⟨⟨w, hxs, ho⟩, hstop⟩ | ⟨st₁, v, hends, hnil, hthen⟩)
    · exact ⟨w, .inl ⟨hxs, hstop⟩, ho⟩
    · obtain ⟨w₁, hxs, hworld⟩ := hends.evaluates hs hm₁ hcanceled
      obtain ⟨w, hys, ho⟩ := (endsWith_takeOutput_iff (hends.only hprovides hs)
        (hends.ready hm₂) (hxs.canceled.trans hcanceled) hworld).1 hthen
      exact ⟨w, .inr ⟨v, w₁, hxs, hnil, hys⟩, ho⟩

/-- Keeps a function that writes its argument. -/
def keepWriter : List Node :=
  [.assign Pos.none (.identifier Pos.none (bytes "f"))
    (.lambda Pos.none none [bytes "x"]
      (.call Pos.none (.identifier Pos.none (bytes "print")) [.identifier Pos.none (bytes "x")]))]

/-- Writes two texts with the function that was kept. -/
def useWriter : List Node :=
  [.call Pos.none (.identifier Pos.none (bytes "f")) [.string Pos.none (bytes "hi")],
    .call Pos.none (.identifier Pos.none (bytes "f")) [.string Pos.none (bytes "ho")]]

/-- A global scope, and machines that bounce every step, every second one and hardly ever. -/
def threeMachines : Store :=
  { ofBuiltins .silent [] with
    machines := #[{ settings := { stackBudget := 1 } }, { settings := { stackBudget := 2 } },
      { settings := {} }] }

/-- A function that is kept by one program and used by another writes what it writes if both are
one program. -/
theorem endsWith_keepWriter_useWriter :
    ∃ o, threeMachines.EndsWith 0 (.program Pos.none (keepWriter ++ useWriter)) 0 o ∧
      o.written = bytes "hi\nho\n" := by
  have honly : threeMachines.Only Action.Primitive := by
    have hbuiltins : (ofBuiltins .silent []).Only Action.Primitive :=
      ofBuiltins_only ⟨trivial, trivial⟩ (by simp) fun _ h => h.elim
    exact ⟨hbuiltins.world, hbuiltins.buffers⟩
  have hends : ((threeMachines.runWithin 60 1 (.program Pos.none keepWriter) 0).any fun x =>
      x.2.isOk && x.1.world.output.text == [] &&
        (x.1.takeOutput.runWithin 120 2 (.program Pos.none useWriter) 0).any fun y =>
          y.1.world.output.text == bytes "hi\nho\n") = true := by
    decide +kernel
  obtain ⟨⟨st₁, result₁⟩, hfirst, hx⟩ := Option.any_eq_true _ _ |>.1 hends
  simp only [Bool.and_eq_true, beq_iff_eq] at hx
  obtain ⟨⟨hok, hempty⟩, hthen⟩ := hx
  obtain ⟨⟨st₂, result₂⟩, hsecond, hwritten⟩ := Option.any_eq_true _ _ |>.1 hthen
  cases result₁ with
  | error e => cases hok
  | ok v =>
    refine ⟨⟨result₂, st₂.world.heap, _⟩, (endsWith_append_iff honly rfl ⟨_, rfl, by decide⟩
      ⟨_, rfl, by decide⟩ ⟨_, rfl, by decide⟩ Pos.none Pos.none Pos.none keepWriter useWriter 0
      _).2 (.inr ⟨st₁, v, ⟨60, hfirst⟩, by decide, ⟨result₂, st₂.world.heap, st₂.world.output.text⟩,
        ⟨st₂, ⟨120, hsecond⟩, rfl, rfl⟩, rfl⟩), ?_⟩
    rw [hempty]
    exact beq_iff_eq.1 hwritten

end Store

end Mycel
