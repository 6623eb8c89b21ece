import Mycel.Proofs.Machine.Confinement
import Mycel.Proofs.Machine.Execution
import Mycel.Proofs.Syntax.Formation

/-!
# Where an evaluation fails

An evaluation that fails with a position fails at a node. `State.From` is the invariant that says
which node that can be: whatever is still to be evaluated, in closures and in continuations as well,
is part of one of the trees that the evaluation works on, unless it is in a closure that was there
before. The trees of an `Origin` are meant to be the program and the bodies of the earlier closures
that the evaluation calls. So it fails at a node of one of these, or without a position
(`State.from_iterate`).
-/

namespace Mycel

/-- What an evaluation works on: trees, closures that were there before it, and its buffers, from
the first one that it makes. -/
structure Origin where
  roots : Node → Prop
  earlier : Closure → Prop
  buffers : Nat

namespace Node

/-- The nodes at which an evaluation can fail. -/
def CanFail : Node → Prop
  | .identifier _ _ | .assign _ _ _ | .binary _ _ _ _ | .call _ _ _ => True
  | _ => False

theorem CanFail.isPresent {e : Node} (h : e.CanFail) : e.isPresent = true := by
  cases e with
  | missing => exact h.elim
  | _ => rfl

/-- A node that has parts is there. -/
theorem Contains.isPresent {root e : Node} (h : root.Contains e) (he : e.isPresent = true) :
    root.isPresent = true := by
  obtain ⟨σ, hσ⟩ := h
  induction hσ with
  | here => exact he
  | inside _ hc _ ih => exact ih (by cases hc <;> rfl)

end Node

namespace Origin

/-- A node is part of one of the trees, if it is there at all. -/
def Has (o : Origin) (e : Node) : Prop := e.isPresent = true → ∃ r, o.roots r ∧ r.Contains e

/-- There is a node at the position at which an evaluation can fail. -/
def Blames (o : Origin) (pos : Pos) : Prop :=
  ∃ r e, o.roots r ∧ r.Contains e ∧ e.CanFail ∧ e.pos = pos

end Origin

variable {o : Origin}

/-! ## What comes from the trees -/

def Value.From (o : Origin) : Value → Prop
  | .closure c => o.Has c.body ∨ o.earlier c
  | .builtin _ _ action => action.Primitive
  | _ => True

def Continuation.From (o : Origin) : Continuation → Prop
  | .final _ => True
  | .assign pos _ _ k => o.Blames pos ∧ k.From o
  | .left pos _ node _ k => o.Blames pos ∧ o.Has node ∧ k.From o
  | .right pos _ v k => o.Blames pos ∧ v.From o ∧ k.From o
  | .branch whenTrue whenFalse _ k => o.Has whenTrue ∧ o.Has whenFalse ∧ k.From o
  | .sequence rest _ k => (∀ e ∈ rest, o.Has e) ∧ k.From o
  | .callee pos args _ k => o.Blames pos ∧ (∀ e ∈ args, o.Has e) ∧ k.From o
  | .argument pos rest _ f buffer _ k =>
    o.Blames pos ∧ (∀ e ∈ rest, o.Has e) ∧ f.From o ∧ o.buffers ≤ buffer ∧ k.From o
  | .bind _ rest body _ k => (∀ b ∈ rest, o.Has b.2) ∧ o.Has body ∧ k.From o
  | .applied _ | .again _ _ | .hosted _ => False

def Control.From (o : Origin) : Control → Prop
  | .evaluate node _ k => o.Has node ∧ k.From o
  | .sequence rest _ last k => (∀ e ∈ rest, o.Has e) ∧ last.From o ∧ k.From o
  | .arguments pos rest _ callee buffer _ k =>
    o.Blames pos ∧ (∀ e ∈ rest, o.Has e) ∧ callee.From o ∧ o.buffers ≤ buffer ∧ k.From o
  | .bindings rest body _ k => (∀ b ∈ rest, o.Has b.2) ∧ o.Has body ∧ k.From o
  | .enter c args k => (Value.closure c).From o ∧ (∀ v ∈ args, v.From o) ∧ k.From o
  | .resume k v => k.From o ∧ v.From o
  | .perform action _ k => action.Primitive ∧ k.From o
  | .report _ _ => False

def Heap.From (o : Origin) (h : Heap) : Prop := ∀ f ∈ h.frames, ∀ b ∈ f.bindings, b.2.From o

structure Store.From (o : Origin) (st : Store) : Prop where
  heap : st.world.heap.From o
  size : o.buffers ≤ st.buffers.size
  buffers : ∀ i vs, o.buffers ≤ i → st.buffers[i]? = some vs → ∀ v ∈ vs, v.From o

structure State.From (o : Origin) (s : State) : Prop where
  store : s.store.From o
  control : s.control.From o
  waiting : s.waiting = []

/-- An error without a position, or at a node of one of the trees. -/
def Error.From (o : Origin) (e : Error) : Prop :=
  ∀ d, e.diagnostic? = some d → d.pos = Pos.none ∨ o.Blames d.pos

/-- It comes from elsewhere as well, if closures do. -/
theorem Value.From.imp {o' : Origin}
    (h : ∀ c, (Value.closure c).From o → (Value.closure c).From o') {v : Value} (hv : v.From o) :
    v.From o' := by
  cases v with
  | closure c => exact h c hv
  | builtin => exact hv
  | _ => trivial

/-! ## Scopes and closures -/

namespace World

variable {w : World}

theorem from_bindIn (hw : w.heap.From o) (s : ScopeId) (name : Text) {v : Value} (hv : v.From o) :
    (w.bindIn s name v).1.heap.From o :=
  Heap.forall_define (Heap.forall_push hw _) _ name hv

theorem from_makeClosure (hw : w.heap.From o) (s : ScopeId) (name : Option Text)
    (params : List Text) {body : Node} (hbody : o.Has body) :
    (w.makeClosure s name params body).1.heap.From o ∧
      (w.makeClosure s name params body).2.From o := by
  cases name with
  | none => exact ⟨hw, .inl hbody⟩
  | some n =>
    have hv : Value.From o (.closure ⟨w.fresh, some n, params, body, w.heap.next⟩) := .inl hbody
    exact ⟨from_bindIn (w := { w with fresh := w.fresh + 1 }) hw s n hv, hv⟩

theorem from_bindParams (s : ScopeId) (params : List Text) {args : List Value}
    (ha : ∀ v ∈ args, v.From o) (hw : w.heap.From o) :
    (bindParams s w params args).heap.From o := by
  induction params generalizing w args with
  | nil => exact hw
  | cons p ps ih =>
    cases args with
    | nil => exact ih ha (Heap.forall_define hw s p (v := .bool false) trivial)
    | cons v vs =>
      obtain ⟨hv, hvs⟩ := List.forall_mem_cons.1 ha
      exact ih hvs (Heap.forall_define hw s p hv)

theorem from_enter (hw : w.heap.From o) (c : Closure) {args : List Value}
    (ha : ∀ v ∈ args, v.From o) : (w.enter c args).1.heap.From o :=
  from_bindParams _ c.params ha (Heap.forall_push hw _)

end World

/-! ## Faults and operators -/

theorem Value.from_isData {v : Value} (h : v.IsData) : v.From o := by
  cases v with
  | closure | builtin => exact h.elim
  | _ => trivial

theorem from_error (fault : Fault) {pos : Pos} (hpos : pos = Pos.none ∨ o.Blames pos) :
    (fault.error pos).From o := by
  intro d hd
  rw [Fault.diagnostic?_error] at hd
  cases hd
  exact hpos

theorem Operator.from_apply {p : Operator} {a b v : Value} (ha : a.From o) (hb : b.From o)
    (h : p.apply a b = .ok v) : v.From o := by
  rcases apply_ok h with hv | rfl | rfl
  · exact Value.from_isData hv
  · exact ha
  · exact hb

/-! ## Steps -/

/-- A step goes on with what comes from the trees, ends the run, or fails at a node of them. -/
def Effect.From (o : Origin) : Effect → Prop
  | .advance st _ control => st.From o ∧ control.From o
  | .deliver st _ _ => st.From o
  | .fail st e => st.From o ∧ e.From o
  | .idle _ | .nest _ _ _ _ => False

namespace Store

variable {st : Store}

theorem From.withWorld (hs : st.From o) {w : World} (hw : w.heap.From o) :
    From o { st with world := w } :=
  ⟨hw, hs.size, hs.buffers⟩

theorem from_fail (hs : st.From o) (fault : Fault) {pos : Pos}
    (hpos : pos = Pos.none ∨ o.Blames pos) : (Effect.fail st (fault.error pos)).From o :=
  ⟨hs, from_error fault hpos⟩

theorem from_evaluate (hs : st.From o) (m : Nat) (scope : ScopeId) {k : Continuation}
    (hk : k.From o) {node : Node} (h : o.Has node) : (st.evaluate m scope k node).From o := by
  by_cases hpresent : node.isPresent = true
  · obtain ⟨r, hr, hnode⟩ := h hpresent
    have hpart : ∀ {added c}, node.Child added c → o.Has c := fun hc hc' =>
      ⟨r, hr, hnode.trans ⟨_, .inside .here hc hc'⟩⟩
    have hblames : node.CanFail → o.Blames node.pos := fun hfail =>
      ⟨r, node, hr, hnode, hfail, rfl⟩
    cases node with
    | number | string | bool => exact ⟨hs, hk, trivial⟩
    | identifier pos name =>
      simp only [evaluate]
      split
      · rename_i v hv
        exact ⟨hs, hk, Heap.forall_get? hs.heap hv⟩
      · exact from_fail hs _ (.inr (hblames trivial))
    | assign pos target value =>
      cases target with
      | identifier pos' name =>
        obtain ⟨r', hr', htarget⟩ := hpart .target rfl
        exact ⟨hs, hpart .value, ⟨r', _, hr', htarget, trivial, rfl⟩, hk⟩
      | _ => exact from_fail hs _ (.inr (hblames trivial))
    | binary pos p left right => exact ⟨hs, hpart .left, hblames trivial, hpart .right, hk⟩
    | branch pos condition whenTrue whenFalse =>
      exact ⟨hs, hpart .condition, hpart .whenTrue, hpart .whenFalse, hk⟩
    | lambda pos name params body =>
      obtain ⟨hheap, hv⟩ := World.from_makeClosure hs.heap scope name params (hpart .lambdaBody)
      exact ⟨hs.withWorld hheap, hk, hv⟩
    | program pos body => exact ⟨hs, fun e he => hpart (.statement he), trivial, hk⟩
    | call pos callee args =>
      exact ⟨hs, hpart .callee, hblames trivial, fun e he => hpart (.argument he), hk⟩
    | binding pos bindings body =>
      refine ⟨hs, fun b hb => ?_, hpart .letBody, hk⟩
      obtain ⟨n, hn⟩ := List.mem_iff_getElem?.1 hb
      exact hpart (.definition hn)
    | missing => cases hpresent
  · cases node with
    | missing => exact from_fail hs _ (.inl rfl)
    | _ => exact absurd rfl hpresent

theorem from_addBuffer (hs : st.From o) : st.addBuffer.1.From o := by
  refine ⟨hs.heap, ?_, fun i vs hi hvs u hu => ?_⟩
  · simp only [addBuffer, Array.size_push]
    exact Nat.le_succ_of_le hs.size
  · exact hs.buffers i vs hi (mem_addBuffer hvs hu) u hu

theorem from_fillBuffer (hs : st.From o) (buffer filled : Nat) {v : Value} (hv : v.From o) :
    (st.fillBuffer buffer filled v).From o := by
  refine ⟨hs.heap, ?_, fun i vs hi hvs u hu => ?_⟩
  · simpa [fillBuffer] using hs.size
  · rcases mem_fillBuffer hvs hu with rfl | ⟨us, hus, hu⟩
    · exact hv
    · exact hs.buffers i us hi hus u hu

theorem from_buffered (hs : st.From o) {buffer : Nat} (hb : o.buffers ≤ buffer) (filled : Nat) :
    ∀ v ∈ st.buffered buffer filled, v.From o := by
  intro v hv
  obtain ⟨vs, hvs, hv⟩ := mem_buffered hv
  exact hs.buffers buffer vs hb hvs v hv

theorem from_bindNext (hs : st.From o) (m : Nat) (scope : ScopeId) (name : Text) {v : Value}
    (hv : v.From o) {rest : List (Text × Node)} (hrest : ∀ b ∈ rest, o.Has b.2) {body : Node}
    (hbody : o.Has body) {k : Continuation} (hk : k.From o) :
    (st.bindNext m scope name v rest body k).From o :=
  ⟨hs.withWorld (World.from_bindIn hs.heap scope name hv), hrest, hbody, hk⟩

theorem from_resume (hs : st.From o) (m : Nat) {v : Value} (hv : v.From o) {k : Continuation}
    (hk : k.From o) : (st.resume m v k).From o := by
  cases k with
  | final run => exact hs
  | assign pos name scope k =>
    obtain ⟨hpos, hk⟩ := hk
    simp only [resume]
    split
    · exact ⟨hs.withWorld (Heap.forall_define hs.heap _ name hv), hk, hv⟩
    · exact from_fail hs _ (.inr hpos)
  | left pos p node scope k =>
    obtain ⟨hpos, hnode, hk⟩ := hk
    exact ⟨hs, hnode, hpos, hv, hk⟩
  | right pos p a k =>
    obtain ⟨hpos, ha, hk⟩ := hk
    simp only [resume]
    split
    · rename_i result happly
      exact ⟨hs, hk, Operator.from_apply ha hv happly⟩
    · exact from_fail hs _ (.inr hpos)
  | branch whenTrue whenFalse scope k =>
    obtain ⟨htrue, hfalse, hk⟩ := hk
    simp only [resume]
    split_ifs
    · exact ⟨hs, htrue, hk⟩
    · exact ⟨hs, hk, hv⟩
    · exact ⟨hs, hfalse, hk⟩
    · exact ⟨hs, hk, trivial⟩
  | sequence rest scope k =>
    obtain ⟨hrest, hk⟩ := hk
    exact ⟨hs, hrest, hv, hk⟩
  | callee pos args scope k =>
    obtain ⟨hpos, hargs, hk⟩ := hk
    exact ⟨from_addBuffer hs, hpos, hargs, hv, hs.size, hk⟩
  | argument pos rest scope f buffer filled k => exact ⟨from_fillBuffer hs buffer filled hv, hk⟩
  | bind name rest body scope k =>
    obtain ⟨hrest, hbody, hk⟩ := hk
    exact from_bindNext hs m scope name hv hrest hbody hk
  | applied | again | hosted => exact hk.elim

theorem from_writeFor (hs : st.From o) (m : Nat) (primitive : String) (t : Text)
    {k : Continuation} (hk : k.From o) : (st.writeFor m primitive t k).From o := by
  simp only [writeFor]
  split
  · exact ⟨hs.withWorld hs.heap, hk, trivial⟩
  · exact from_fail hs _ (.inl rfl)

theorem from_perform (hs : st.From o) (m : Nat) (args : List Value) {k : Continuation}
    (hk : k.From o) {action : Action} (h : action.Primitive) :
    (st.perform m args k action).From o := by
  cases action with
  | print | println => exact from_writeFor hs m _ _ hk
  | _ => exact h.elim

end Store

theorem Value.from_call? {f : Value} {args : List Value} {k : Continuation} {control : Control}
    (hf : f.From o) (hargs : ∀ v ∈ args, v.From o) (hk : k.From o)
    (h : f.call? args k = some control) : control.From o := by
  cases f with
  | closure c =>
    cases h
    exact ⟨hf, hargs, hk⟩
  | builtin id name action =>
    cases h
    exact ⟨hf, hk⟩
  | _ => cases h

/-- Whenever an earlier closure is called, its body is one of the trees. -/
def State.Covered (o : Origin) (s : State) : Prop :=
  ∀ c args k, s.control = .enter c args k → o.earlier c → o.Has c.body

/-- What a step does. -/
theorem Control.from_execute {st : Store} (hs : st.From o) (m : Nat) {c : Control}
    (hc : c.From o) (hcovered : ∀ f args k, c = .enter f args k → o.earlier f → o.Has f.body) :
    (c.execute st m).From o := by
  cases c with
  | evaluate node scope k => exact Store.from_evaluate hs m scope hc.2 hc.1
  | sequence rest scope last k =>
    obtain ⟨hrest, hlast, hk⟩ := hc
    cases rest with
    | nil => exact ⟨hs, hk, hlast⟩
    | cons node rest =>
      obtain ⟨hnode, hrest⟩ := List.forall_mem_cons.1 hrest
      exact ⟨hs, hnode, hrest, hk⟩
  | arguments pos rest scope f buffer filled k =>
    obtain ⟨hpos, hrest, hf, hbuffer, hk⟩ := hc
    cases rest with
    | nil =>
      simp only [Control.execute]
      split
      · rename_i control hcall
        exact ⟨hs, Value.from_call? hf (Store.from_buffered hs hbuffer filled) hk hcall⟩
      · exact Store.from_fail hs _ (.inr hpos)
    | cons node rest =>
      obtain ⟨hnode, hrest⟩ := List.forall_mem_cons.1 hrest
      exact ⟨hs, hnode, hpos, hrest, hf, hbuffer, hk⟩
  | bindings rest body scope k =>
    obtain ⟨hrest, hbody, hk⟩ := hc
    cases rest with
    | nil => exact ⟨hs, hbody, hk⟩
    | cons b rest =>
      obtain ⟨hb, hrest⟩ := List.forall_mem_cons.1 hrest
      simp only [Control.execute]
      split_ifs
      · exact ⟨hs, hb, hrest, hbody, hk⟩
      · exact Store.from_bindNext hs m scope b.1 (v := .bool false) trivial hrest hbody hk
  | enter f args k =>
    obtain ⟨hf, hargs, hk⟩ := hc
    have hbody : o.Has f.body := hf.elim id (hcovered f args k rfl)
    exact ⟨hs.withWorld (World.from_enter hs.heap f hargs), hbody, hk⟩
  | resume k v => exact Store.from_resume hs m hc.2 hc.1
  | perform action args k => exact Store.from_perform hs m args hc.2 hc.1
  | report => exact hc.elim

/-! ## Runs -/

/-- A run goes on, or it ends, with a value or with an error at a node of the trees. -/
def Progress.From (o : Origin) : Progress → Prop
  | .running s => s.From o
  | .finished st result => st.world.heap.From o ∧ ∀ e, result = .error e → e.From o

namespace State

variable {s : State}

theorem from_endRun {st : Store} (hs : st.From o) (run : Run) (failure : Option Error) :
    (st.endRun run failure).world.heap.From o := by
  rw [(Store.heap_endRun st run failure).1]
  exact hs.heap

theorem from_conclude {st : Store} (hs : st.From o) (run : Run) :
    (conclude run [] st).From o := by
  simp only [conclude]
  split
  · exact ⟨from_endRun hs run none, fun e he => by cases he⟩
  · refine ⟨from_endRun hs run _, fun e he => ?_⟩
    cases he
    exact from_error _ (.inl rfl)

theorem from_execute (hs : s.From o) (hcovered : s.Covered o) : s.execute.From o := by
  have heffect := Control.from_execute hs.store s.machine hs.control hcovered
  obtain ⟨st, m, control, run, waiting⟩ := s
  obtain rfl : waiting = [] := hs.waiting
  simp only [execute]
  cases he : control.execute st m with
  | advance st' m' control' =>
    rw [he] at heffect
    exact ⟨heffect.1, heffect.2, rfl⟩
  | deliver st' id v =>
    rw [he] at heffect
    simp only [after, deliver]
    split_ifs
    · exact ⟨from_endRun heffect run none, fun e he => by cases he⟩
    · exact from_conclude heffect run
  | fail st' e =>
    rw [he] at heffect
    refine ⟨from_endRun heffect.1 run _, fun e' he' => ?_⟩
    cases he'
    exact heffect.2
  | idle | nest =>
    rw [he] at heffect
    exact heffect.elim

theorem from_modifyMachine {st : Store} (hs : st.From o) (m : Nat) (f : Machine → Machine) :
    (st.modifyMachine m f).From o :=
  ⟨hs.heap, hs.size, hs.buffers⟩

theorem from_charge (hs : s.From o) : s.charge.From o :=
  ⟨from_modifyMachine hs.store _ _, hs.control, hs.waiting⟩

theorem from_bounce (hs : s.From o) (target : Target) : (s.bounce target).From o := by
  obtain ⟨st, m, control, run, waiting⟩ := s
  obtain rfl : waiting = [] := hs.waiting
  have hstopped : ∀ {st : Store}, st.From o → ∀ fault : Fault,
      (fail run [] st (fault.error Pos.none)).From o := by
    intro st hst fault
    refine ⟨from_endRun hst run _, fun e he => ?_⟩
    cases he
    exact from_error fault (.inl rfl)
  have hcounted := from_modifyMachine hs.store run.machine fun m =>
    { m with bounces := m.bounces + 1 }
  simp only [bounce]
  split
  · exact hstopped hcounted _
  · split_ifs
    · exact hstopped hcounted _
    · exact ⟨from_modifyMachine hcounted _ _, hs.control, rfl⟩

theorem from_step (hs : s.From o) (hcovered : s.Covered o) : s.step.From o := by
  unfold step
  split
  · exact from_execute hs hcovered
  · dsimp only
    split_ifs
    · exact from_bounce (from_charge hs) _
    · exact from_execute (from_charge hs) hcovered

/-- A run that fails does so at a node of the trees, or without a position. -/
theorem from_iterate (hs : s.From o)
    (hcovered : ∀ n s', iterate step n s = .running s' → s'.Covered o) (n : Nat) :
    (iterate step n s).From o := by
  induction n generalizing s with
  | zero => exact hs
  | succ n ih =>
    have hstep := from_step hs (hcovered 0 s rfl)
    cases h : s.step with
    | running s' =>
      rw [h] at hstep
      rw [iterate_succ_running h]
      refine ih hstep fun m s'' hm => hcovered (m + 1) s'' ?_
      rw [iterate_succ_running h, hm]
    | finished st result =>
      rw [h] at hstep
      rw [iterate_succ_finished h]
      exact hstep

end State

end Mycel
