import Mathlib.Tactic.SplitIfs
import Mycel.Machine.Step

/-!
# The builtins within reach

A program can call only the builtins that it finds in its scopes, and those that they give it in
turn. `State.Only p` says that every builtin within reach of a state satisfies `p`: in a scope, in
a buffer, in what is to be done next or later, and in what the host has been told. If `p` holds of
the builtins that a builtin with `p` can make (`Provides`), a step keeps it
(`Control.execute_only`).
-/

namespace Mycel

/-! ## Values and continuations -/

mutual

/-- Every builtin within reach of a value satisfies `p`. -/
def Value.Only (p : Action → Prop) : Value → Prop
  | .builtin _ _ action => action.Only p
  | _ => True

/-- A builtin satisfies `p`, and so do those within reach of the continuation that it holds. -/
def Action.Only (p : Action → Prop) : Action → Prop
  | .escape machine k => p (.escape machine k) ∧ k.Only p
  | action => p action

/-- Every builtin within reach of a continuation satisfies `p`. One that is the host's counts as a
builtin of the host. -/
def Continuation.Only (p : Action → Prop) : Continuation → Prop
  | .final _ => True
  | .assign _ _ _ k => k.Only p
  | .left _ _ _ _ k => k.Only p
  | .right _ _ v k => v.Only p ∧ k.Only p
  | .branch _ _ _ k => k.Only p
  | .sequence _ _ k => k.Only p
  | .callee _ _ _ k => k.Only p
  | .argument _ _ _ callee _ _ k => callee.Only p ∧ k.Only p
  | .bind _ _ _ _ k => k.Only p
  | .applied k => k.Only p
  | .again f k => f.Only p ∧ k.Only p
  | .hosted number => p (.host number)

end

variable {p : Action → Prop}

/-- A result is a value or an error; only a value can hold builtins. -/
def resultOnly (p : Action → Prop) : Except Error Value → Prop
  | .ok v => v.Only p
  | .error _ => True

/-! ## Scopes and the host -/

def Heap.Only (p : Action → Prop) (h : Heap) : Prop :=
  ∀ f ∈ h.frames, ∀ b ∈ f.bindings, b.2.Only p

/-- The continuation counts as the builtin that would resume it. -/
def Captured.Only (p : Action → Prop) (c : Captured) : Prop :=
  (Action.escape c.machine c.continuation).Only p

def Notice.Only (p : Action → Prop) : Notice → Prop
  | .called _ args k => (∀ v ∈ args, v.Only p) ∧ k.Only p
  | .applied _ v => v.Only p
  | .ended _ result => resultOnly p result

def Demand.Only (p : Action → Prop) : Demand → Prop
  | .drop => True
  | .fail _ => True
  | .resume k v => k.Only p ∧ v.Only p
  | .apply f args number => p (.host number) ∧ f.Only p ∧ ∀ v ∈ args, v.Only p
  | .run _ _ number => p (.host number)

def Encounter.Only (p : Action → Prop) (e : Encounter) : Prop := e.notice.Only p ∧ e.heap.Only p

def Reaction.Only (p : Action → Prop) (r : Reaction) : Prop := r.heap.Only p ∧ r.demand.Only p

/-- A host that was given only builtins with `p` gives only such builtins. -/
def HostProgram.Keeps (p : Action → Prop) (host : HostProgram) : Prop :=
  ∀ e es, e.Only p → (∀ e' ∈ es, e'.Only p) → (host.react e es).Only p

/-- Every builtin within reach of a world satisfies `p`. The host counts only if it can be called.
-/
structure World.Only (p : Action → Prop) (w : World) : Prop where
  heap : w.heap.Only p
  host : ∀ number, p (.host number) → w.host.Keeps p ∧ ∀ e ∈ w.encounters, e.Only p

structure Store.Only (p : Action → Prop) (st : Store) : Prop where
  world : st.world.Only p
  buffers : ∀ vs ∈ st.buffers, ∀ v ∈ vs, v.Only p

/-! ## States -/

def Control.Only (p : Action → Prop) : Control → Prop
  | .evaluate _ _ k => k.Only p
  | .sequence _ _ last k => last.Only p ∧ k.Only p
  | .arguments _ _ _ callee _ _ k => callee.Only p ∧ k.Only p
  | .bindings _ _ _ k => k.Only p
  | .enter _ args k => (∀ v ∈ args, v.Only p) ∧ k.Only p
  | .resume k v => k.Only p ∧ v.Only p
  | .perform action args k => action.Only p ∧ (∀ v ∈ args, v.Only p) ∧ k.Only p
  | .report number result => p (.host number) ∧ resultOnly p result

def Resumption.Only (p : Action → Prop) : Resumption → Prop
  | .value k => k.Only p
  | .host number => p (.host number)

def Run.Only (p : Action → Prop) (run : Run) : Prop := ∀ v ∈ run.result, v.Only p

def Suspended.Only (p : Action → Prop) (s : Suspended) : Prop :=
  s.run.Only p ∧ s.resumption.Only p

/-- Every builtin within reach of a state satisfies `p`. -/
structure State.Only (p : Action → Prop) (s : State) : Prop where
  store : s.store.Only p
  control : s.control.Only p
  run : s.run.Only p
  waiting : ∀ w ∈ s.waiting, w.Only p

def Progress.Only (p : Action → Prop) : Progress → Prop
  | .running s => s.Only p
  | .finished st result => st.Only p ∧ resultOnly p result

def Effect.Only (p : Action → Prop) : Effect → Prop
  | .advance st _ control => st.Only p ∧ control.Only p
  | .deliver st _ v => st.Only p ∧ v.Only p
  | .idle st => st.Only p
  | .fail st _ => st.Only p
  | .nest st _ _ resumption => st.Only p ∧ resumption.Only p

/-- What the builtins with `p` make on machine `m` satisfies `p` again. -/
structure Provides (p : Action → Prop) (m : Nat) : Prop where
  callcc : p .callcc → ∀ k, p (.escape m k)
  host : ∀ number, p (.host number) → ∀ k, p (.escape m k)
  inner : ∀ hosted, p (.inner hosted) → p .print ∧ p .println
  hosted : p (.inner true) → ∀ b ∈ World.hostBuiltins, p b.2

/-! ## Weaker predicates -/

section

variable {q : Action → Prop}

mutual

theorem Value.only_imp (hpq : ∀ action, p action → q action) : ∀ v : Value, v.Only p → v.Only q
  | .builtin _ _ action, h => Action.only_imp hpq action h
  | .number _, _ | .string _, _ | .bool _, _ | .closure _, _ => trivial

theorem Action.only_imp (hpq : ∀ action, p action → q action) :
    ∀ action : Action, action.Only p → action.Only q
  | .escape _ k, h => ⟨hpq _ h.1, Continuation.only_imp hpq k h.2⟩
  | .print, h | .println, h | .halt, h | .count, h | .stop, h | .fail, h | .apply, h | .twice, h
  | .inner _, h | .callcc, h | .inert, h | .host _, h => hpq _ h

theorem Continuation.only_imp (hpq : ∀ action, p action → q action) :
    ∀ k : Continuation, k.Only p → k.Only q
  | .final _, _ => trivial
  | .assign _ _ _ k, h | .left _ _ _ _ k, h | .branch _ _ _ k, h | .sequence _ _ k, h
  | .callee _ _ _ k, h | .bind _ _ _ _ k, h | .applied k, h => Continuation.only_imp hpq k h
  | .right _ _ v k, h | .argument _ _ _ v _ _ k, h | .again v k, h =>
    ⟨Value.only_imp hpq v h.1, Continuation.only_imp hpq k h.2⟩
  | .hosted _, h => hpq _ h

end

/-- A weaker predicate on builtins, under which there are none of the host. -/
theorem Store.Only.imp {st : Store} (hs : st.Only p) (hpq : ∀ action, p action → q action)
    (hhost : ∀ number, ¬q (.host number)) : st.Only q :=
  ⟨⟨fun f hf b hb => Value.only_imp hpq _ (hs.world.heap f hf b hb),
      fun number h => absurd h (hhost number)⟩,
    fun vs hvs v hv => Value.only_imp hpq _ (hs.buffers vs hvs v hv)⟩

theorem Control.Only.imp {c : Control} (hc : c.Only p) (hpq : ∀ action, p action → q action) :
    c.Only q := by
  have hlist : ∀ vs : List Value, (∀ v ∈ vs, v.Only p) → ∀ v ∈ vs, v.Only q :=
    fun vs hvs v hv => Value.only_imp hpq v (hvs v hv)
  cases c with
  | evaluate | bindings => exact Continuation.only_imp hpq _ hc
  | sequence | arguments =>
    exact ⟨Value.only_imp hpq _ hc.1, Continuation.only_imp hpq _ hc.2⟩
  | enter closure args k => exact ⟨hlist args hc.1, Continuation.only_imp hpq _ hc.2⟩
  | resume k v => exact ⟨Continuation.only_imp hpq _ hc.1, Value.only_imp hpq _ hc.2⟩
  | perform action args k =>
    exact ⟨Action.only_imp hpq _ hc.1, hlist args hc.2.1, Continuation.only_imp hpq _ hc.2.2⟩
  | report number result =>
    refine ⟨hpq _ hc.1, ?_⟩
    cases result with
    | ok v => exact Value.only_imp hpq v hc.2
    | error e => trivial

end

/-! ## Reading and writing scopes -/

namespace Heap

variable {h : Heap} {P : Value → Prop}

/-- A new scope binds nothing. -/
theorem forall_push (hh : ∀ f ∈ h.frames, ∀ b ∈ f.bindings, P b.2) (parent : Option ScopeId) :
    ∀ f ∈ h.frames.push ⟨parent, []⟩, ∀ b ∈ f.bindings, P b.2 := by
  intro f hf
  rcases Array.mem_push.1 hf with hf | rfl
  · exact hh f hf
  · exact List.forall_mem_nil _

theorem mem_put {name : Text} {v : Value} {bs : List (Text × Value)} {b : Text × Value}
    (h : b ∈ Frame.put name v bs) : b ∈ bs ∨ b.2 = v := by
  induction bs with
  | nil =>
    obtain rfl := List.mem_singleton.1 h
    exact Or.inr rfl
  | cons c bs ih =>
    simp only [Frame.put] at h
    split_ifs at h with hn
    · rcases List.mem_cons.1 h with rfl | h
      · exact Or.inr rfl
      · exact Or.inl (List.mem_cons_of_mem _ h)
    · rcases List.mem_cons.1 h with rfl | h
      · exact Or.inl (List.mem_cons_self ..)
      · exact (ih h).imp_left (List.mem_cons_of_mem _)

theorem forall_define (hh : ∀ f ∈ h.frames, ∀ b ∈ f.bindings, P b.2) (s : ScopeId) (name : Text)
    {v : Value} (hv : P v) : ∀ f ∈ (h.define s name v).frames, ∀ b ∈ f.bindings, P b.2 := by
  intro f hf b hb
  obtain ⟨i, hi⟩ := Array.mem_iff_getElem?.1 hf
  rw [define, Array.getElem?_modify] at hi
  split_ifs at hi with his
  · obtain ⟨g, hg, rfl⟩ := Option.map_eq_some_iff.1 hi
    rcases mem_put hb with hb | hb
    · exact hh g (Array.mem_of_getElem? hg) b hb
    · rwa [hb]
  · exact hh f (Array.mem_of_getElem? hi) b hb

theorem forall_get? (hh : ∀ f ∈ h.frames, ∀ b ∈ f.bindings, P b.2) {s : ScopeId} {name : Text}
    {v : Value} (hv : h.get? s name = some v) : P v := by
  simp only [get?] at hv
  split at hv
  · cases hv
  · obtain ⟨f, hf, hget⟩ := Option.bind_eq_some_iff.1 hv
    obtain ⟨b, hfind, rfl⟩ := Option.map_eq_some_iff.1 hget
    exact hh f (Array.mem_of_getElem? hf) b (List.mem_of_find?_eq_some hfind)

theorem only_root (hh : h.Only p) : h.root.Only p := forall_push hh none

theorem only_extend (hh : h.Only p) (s : ScopeId) : (h.extend s).Only p := forall_push hh (some s)

theorem only_define (hh : h.Only p) (s : ScopeId) (name : Text) {v : Value} (hv : v.Only p) :
    (h.define s name v).Only p :=
  forall_define hh s name hv

theorem only_get? (hh : h.Only p) {s : ScopeId} {name : Text} {v : Value}
    (hv : h.get? s name = some v) : v.Only p :=
  forall_get? hh hv

end Heap

/-! ## What the world does for a step -/

namespace World

variable {w : World}

/-- The host keeps to `p` whatever becomes of the scopes. -/
theorem Only.withHeap (hw : w.Only p) {h : Heap} (hh : h.Only p) :
    World.Only p { w with heap := h } :=
  ⟨hh, hw.host⟩

theorem only_define (hw : w.Only p) (s : ScopeId) (name : Text) {v : Value} (hv : v.Only p) :
    (w.define s name v).Only p :=
  hw.withHeap (Heap.only_define hw.heap s name hv)

theorem only_bindIn (hw : w.Only p) (s : ScopeId) (name : Text) {v : Value} (hv : v.Only p) :
    (w.bindIn s name v).1.Only p :=
  hw.withHeap (Heap.only_define (Heap.only_extend hw.heap s) _ name hv)

theorem only_makeClosure (hw : w.Only p) (s : ScopeId) (name : Option Text) (params : List Text)
    (body : Node) :
    (w.makeClosure s name params body).1.Only p ∧ (w.makeClosure s name params body).2.Only p := by
  cases name with
  | none => exact ⟨⟨hw.heap, hw.host⟩, by simp [makeClosure, Value.Only]⟩
  | some n =>
    refine ⟨?_, by simp [makeClosure, Value.Only]⟩
    exact only_bindIn (w := { w with fresh := w.fresh + 1 }) ⟨hw.heap, hw.host⟩ s n
      (by simp [Value.Only])

theorem only_bindParams (s : ScopeId) (params : List Text) {args : List Value}
    (ha : ∀ v ∈ args, v.Only p) (hw : w.Only p) : (bindParams s w params args).Only p := by
  induction params generalizing w args with
  | nil => exact hw
  | cons q ps ih =>
    cases args with
    | nil => exact ih ha (only_define hw s q (by simp [Value.Only]))
    | cons v vs =>
      obtain ⟨hv, hvs⟩ := List.forall_mem_cons.1 ha
      exact ih hvs (only_define hw s q hv)

theorem only_enter (hw : w.Only p) (c : Closure) {args : List Value} (ha : ∀ v ∈ args, v.Only p) :
    (w.enter c args).1.Only p :=
  only_bindParams _ c.params ha (hw.withHeap (Heap.only_extend hw.heap c.scope))

theorem only_addBuiltins (s : ScopeId) {bs : List (String × Action)}
    (hb : ∀ b ∈ bs, (b.2).Only p) (hw : w.Only p) : (w.addBuiltins s bs).Only p := by
  induction bs generalizing w with
  | nil => exact hw
  | cons b bs ih =>
    obtain ⟨h, hs⟩ := List.forall_mem_cons.1 hb
    refine ih hs ⟨?_, hw.host⟩
    exact Heap.only_define hw.heap s _ (by simpa [Value.Only] using h)

theorem only_globals (hw : w.Only p) (h : p .print ∧ p .println) : w.globals.1.Only p := by
  refine only_addBuiltins _ ?_ (hw.withHeap (Heap.only_root hw.heap))
  simpa [primitives, Action.Only] using h

theorem only_tell (hw : w.Only p) {number : Nat} (hn : p (.host number)) {notice : Notice}
    (h : notice.Only p) : (w.tell notice).1.Only p ∧ (w.tell notice).2.Only p := by
  obtain ⟨hk, hes⟩ := hw.host number hn
  have he : Encounter.Only p ⟨notice, w.heap, w.output, w.fresh⟩ := ⟨h, hw.heap⟩
  have hr := hk _ _ he hes
  exact ⟨⟨hr.1, fun _ _ => ⟨hk, List.forall_mem_cons.2 ⟨he, hes⟩⟩⟩, hr.2⟩

end World

/-! ## Steps -/

/-- A value that is not a callable. -/
def Value.IsData : Value → Prop
  | .closure _ | .builtin _ _ _ => False
  | _ => True

theorem Value.IsData.only {v : Value} (h : v.IsData) : v.Only p := by
  cases v with
  | builtin => exact h.elim
  | _ => trivial

namespace Operator

variable {o : Operator} {a b v : Value}

/-- What an operator on numbers ends with: data, or a fault of an operand. -/
def Settles (o : Operator) : Except Fault Value → Prop
  | .ok v => v.IsData
  | .error fault => fault = .divideByZero ∨ ∃ kind shown, fault = .operand o.spelling kind shown

theorem settles_operands {g : Float → Float → Except Fault Value}
    (hg : ∀ x y, o.Settles (g x y)) :
    o.Settles (o.operand a >>= fun x => o.operand b >>= fun y => g x y) := by
  cases a with
  | number x =>
    cases b with
    | number y => exact hg x y
    | _ => exact .inr ⟨_, _, rfl⟩
  | _ => exact .inr ⟨_, _, rfl⟩

theorem settles_arithmetic (f : Float → Float → Float) : o.Settles (o.arithmetic f a b) :=
  settles_operands fun _ _ => trivial

theorem settles_division (f : Float → Float → Float) : o.Settles (o.division f a b) := by
  refine settles_operands fun x y => ?_
  split_ifs
  · exact .inl rfl
  · trivial

theorem settles_order (r : Float → Float → Bool) : o.Settles (o.order r a b) :=
  settles_operands fun _ _ => trivial

/-- What an operator does with its operands. -/
theorem apply_cases (o : Operator) (a b : Value) :
    o.Settles (o.apply a b) ∨ o.apply a b = .ok a ∨ o.apply a b = .ok b ∨
      ∃ spelling, o = .other spelling ∧ o.apply a b = .error (.unknownOperator spelling) := by
  cases o with
  | add | sub | mul => exact .inl (settles_arithmetic _)
  | div | rem => exact .inl (settles_division _)
  | less | greater | lessEqual | greaterEqual => exact .inl (settles_order _)
  | equal | notEqual => exact .inl trivial
  | and =>
    by_cases ha : a.isTruthy = true
    · exact .inr (.inr (.inl (by simp [apply, ha])))
    · exact .inl (by simp [apply, ha, Settles, Value.IsData])
  | or =>
    by_cases ha : a.isTruthy = true
    · exact .inr (.inl (by simp [apply, ha]))
    · exact .inr (.inr (.inl (by simp [apply, ha])))
  | other spelling => exact .inr (.inr (.inr ⟨spelling, rfl, rfl⟩))

/-- An operator gives a number, a boolean or one of its operands. -/
theorem apply_ok (h : o.apply a b = .ok v) : v.IsData ∨ v = a ∨ v = b := by
  have hcases := apply_cases o a b
  rw [h] at hcases
  obtain hv | ha | hb | ⟨_, _, hother⟩ := hcases
  · exact .inl hv
  · exact .inr (.inl (Except.ok.inj ha))
  · exact .inr (.inr (Except.ok.inj hb))
  · cases hother

theorem only_apply (ha : a.Only p) (hb : b.Only p) (h : o.apply a b = .ok v) : v.Only p := by
  rcases apply_ok h with hv | rfl | rfl
  · exact hv.only
  · exact ha
  · exact hb

end Operator

theorem Value.only_call? {f : Value} {args : List Value} {k : Continuation} {control : Control}
    (hf : f.Only p) (ha : ∀ v ∈ args, v.Only p) (hk : k.Only p)
    (h : f.call? args k = some control) : control.Only p := by
  cases f with
  | closure c =>
    cases h
    exact ⟨ha, hk⟩
  | builtin id name action =>
    cases h
    exact ⟨by simpa [Value.Only] using hf, ha, hk⟩
  | _ => cases h

namespace Store

variable {st : Store}

/-- A store with another world. -/
theorem Only.withWorld (hs : st.Only p) {w : World} (hw : w.Only p) :
    Store.Only p { st with world := w } :=
  ⟨hw, hs.buffers⟩

theorem only_evaluate (hs : st.Only p) (m : Nat) (scope : ScopeId) {k : Continuation}
    (hk : k.Only p) (node : Node) : (st.evaluate m scope k node).Only p := by
  cases node with
  | number | string | bool => exact ⟨hs, hk, trivial⟩
  | identifier pos name =>
    simp only [evaluate]
    split
    · next v h => exact ⟨hs, hk, Heap.only_get? hs.world.heap h⟩
    · exact hs
  | assign pos target value =>
    cases target with
    | identifier => exact ⟨hs, hk⟩
    | _ => exact hs
  | binary | branch | call | binding => exact ⟨hs, hk⟩
  | lambda pos name params body =>
    obtain ⟨hw, hv⟩ := World.only_makeClosure hs.world scope name params body
    exact ⟨hs.withWorld hw, hk, hv⟩
  | program => exact ⟨hs, trivial, hk⟩
  | missing => exact hs

theorem only_apply (hs : st.Only p) (m : Nat) {f : Value} {args : List Value} {k : Continuation}
    (hf : f.Only p) (ha : ∀ v ∈ args, v.Only p) (hk : k.Only p) :
    (st.apply m f args k).Only p := by
  unfold apply
  split
  · next control h => exact ⟨hs, Value.only_call? hf ha hk h⟩
  · exact hs

theorem only_obey (hs : st.Only p) (m : Nat) {demand : Demand} (hd : demand.Only p) :
    (st.obey m demand).Only p := by
  cases demand with
  | drop | fail => exact hs
  | resume k v => exact ⟨hs, hd.1.2, hd.2⟩
  | apply f args number =>
    exact only_apply hs m hd.2.1 hd.2.2 (by simpa [Continuation.Only] using hd.1)
  | run => exact ⟨hs, hd⟩

theorem only_consult (hs : st.Only p) (m : Nat) {number : Nat} (hn : p (.host number))
    {notice : Notice} (h : notice.Only p) : (st.consult m notice).Only p := by
  obtain ⟨hw, hd⟩ := World.only_tell hs.world hn h
  exact only_obey (hs.withWorld hw) m hd

theorem only_bindNext (hs : st.Only p) (m : Nat) (scope : ScopeId) (name : Text) {v : Value}
    (hv : v.Only p) (rest : List (Text × Node)) (body : Node) {k : Continuation} (hk : k.Only p) :
    (st.bindNext m scope name v rest body k).Only p :=
  ⟨hs.withWorld (World.only_bindIn hs.world scope name hv), hk⟩

theorem mem_fillBuffer {buffer filled i : Nat} {v u : Value} {vs : Array Value}
    (hvs : (st.fillBuffer buffer filled v).buffers[i]? = some vs) (hu : u ∈ vs) :
    u = v ∨ ∃ us, st.buffers[i]? = some us ∧ u ∈ us := by
  rw [fillBuffer, Array.getElem?_modify] at hvs
  split_ifs at hvs
  · obtain ⟨us, hus, rfl⟩ := Option.map_eq_some_iff.1 hvs
    split_ifs at hu
    · rcases Array.mem_or_eq_of_mem_setIfInBounds hu with hu | hu
      · exact .inr ⟨us, hus, hu⟩
      · exact .inl hu
    · rcases Array.mem_push.1 hu with hu | hu
      · exact .inr ⟨us, hus, hu⟩
      · exact .inl hu
  · exact .inr ⟨vs, hvs, hu⟩

theorem mem_addBuffer {i : Nat} {u : Value} {vs : Array Value}
    (hvs : st.addBuffer.1.buffers[i]? = some vs) (hu : u ∈ vs) : st.buffers[i]? = some vs := by
  simp only [addBuffer, Array.getElem?_push] at hvs
  split_ifs at hvs
  · cases hvs
    simp at hu
  · exact hvs

theorem mem_buffered {buffer filled : Nat} {v : Value} (hv : v ∈ st.buffered buffer filled) :
    ∃ vs, st.buffers[buffer]? = some vs ∧ v ∈ vs := by
  have hv := List.mem_of_mem_take hv
  cases hvs : st.buffers[buffer]? with
  | none => simp [hvs] at hv
  | some vs =>
    rw [hvs, Option.getD_some, Array.mem_toList_iff] at hv
    exact ⟨vs, rfl, hv⟩

theorem only_fillBuffer (hs : st.Only p) (buffer filled : Nat) {v : Value} (hv : v.Only p) :
    (st.fillBuffer buffer filled v).Only p := by
  refine ⟨hs.world, fun vs hvs u hu => ?_⟩
  obtain ⟨i, hi⟩ := Array.mem_iff_getElem?.1 hvs
  rcases mem_fillBuffer hi hu with rfl | ⟨us, hus, hu⟩
  · exact hv
  · exact hs.buffers us (Array.mem_of_getElem? hus) u hu

theorem only_addBuffer (hs : st.Only p) : st.addBuffer.1.Only p := by
  refine ⟨hs.world, fun vs hvs u hu => ?_⟩
  obtain ⟨i, hi⟩ := Array.mem_iff_getElem?.1 hvs
  exact hs.buffers vs (Array.mem_of_getElem? (mem_addBuffer hi hu)) u hu

theorem only_buffered (hs : st.Only p) (buffer filled : Nat) :
    ∀ v ∈ st.buffered buffer filled, v.Only p := by
  intro v hv
  obtain ⟨vs, hvs, hv⟩ := mem_buffered hv
  exact hs.buffers vs (Array.mem_of_getElem? hvs) v hv

theorem only_resume (hs : st.Only p) (m : Nat) {v : Value} (hv : v.Only p) {k : Continuation}
    (hk : k.Only p) : (st.resume m v k).Only p := by
  cases k with
  | final run => exact ⟨hs, hv⟩
  | assign pos name scope k =>
    simp only [resume]
    split
    · exact ⟨hs.withWorld (World.only_define hs.world _ name hv), hk, hv⟩
    · exact hs
  | left pos o right scope k => exact ⟨hs, hv, hk⟩
  | right pos o left k =>
    simp only [resume]
    split
    · next result h => exact ⟨hs, hk.2, Operator.only_apply hk.1 hv h⟩
    · exact hs
  | branch whenTrue whenFalse scope k =>
    simp only [resume]
    split_ifs
    · exact ⟨hs, hk⟩
    · exact ⟨hs, hk, hv⟩
    · exact ⟨hs, hk⟩
    · exact ⟨hs, hk, trivial⟩
  | sequence rest scope k => exact ⟨hs, hv, hk⟩
  | callee pos args scope k => exact ⟨only_addBuffer hs, hv, hk⟩
  | argument pos rest scope callee buffer filled k =>
    exact ⟨only_fillBuffer hs buffer filled hv, hk⟩
  | bind name rest body scope k => exact only_bindNext hs m scope name hv rest body hk
  | applied k => exact ⟨hs, hk, hv⟩
  | again f k => exact only_apply hs m hk.1 (by simpa using hv) hk.2
  | hosted number => exact only_consult hs m hk hv

theorem only_writeFor (hs : st.Only p) (m : Nat) (primitive : String) (t : Text)
    {k : Continuation} (hk : k.Only p) : (st.writeFor m primitive t k).Only p := by
  unfold writeFor
  split
  · exact ⟨hs.withWorld ⟨hs.world.heap, hs.world.host⟩, hk, trivial⟩
  · exact hs

theorem only_headD {args : List Value} (ha : ∀ v ∈ args, v.Only p) :
    (args.headD (.bool false)).Only p := by
  cases args with
  | nil => trivial
  | cons v vs => exact ha v (List.mem_cons_self ..)

theorem only_perform {m : Nat} (hp : Provides p m) (hs : st.Only p) {args : List Value}
    (ha : ∀ v ∈ args, v.Only p) {k : Continuation} (hk : k.Only p) {action : Action}
    (hact : action.Only p) : (st.perform m args k action).Only p := by
  have htail : ∀ v ∈ args.tail, v.Only p := fun v hv => ha v (List.mem_of_mem_tail hv)
  have hother : ∀ w : World, w.heap = st.world.heap → w.host = st.world.host →
      w.encounters = st.world.encounters → Store.Only p { st with world := w } := by
    intro w h₁ h₂ h₃
    refine hs.withWorld ⟨h₁ ▸ hs.world.heap, ?_⟩
    rw [h₂, h₃]
    exact hs.world.host
  cases action with
  | print | println => exact only_writeFor hs m _ _ hk
  | halt | fail | inert => exact hs
  | count | stop => exact ⟨hother _ rfl rfl rfl, hk, trivial⟩
  | apply => exact only_apply hs m (only_headD ha) htail hk
  | twice =>
    exact only_apply hs m (only_headD ha) (by simpa using only_headD htail) ⟨only_headD ha, hk⟩
  | inner hosted =>
    simp only [perform]
    split
    · exact hs
    · have hw := World.only_globals hs.world (hp.inner hosted hact)
      refine ⟨hs.withWorld ?_, hk⟩
      split_ifs with hh
      · subst hh
        refine World.only_addBuiltins _ ?_ hw
        have hb := hp.hosted hact
        simpa [World.hostBuiltins, Action.Only] using hb
      · exact hw
  | callcc =>
    refine only_apply (hother { st.world with fresh := st.world.fresh + 1 } rfl rfl rfl) m
      (only_headD ha) ?_ hk
    have hesc : (Action.escape m k).Only p := ⟨hp.callcc hact k, hk⟩
    simpa [Value.Only] using hesc
  | escape machine continuation => exact ⟨hs, hact.2, only_headD ha⟩
  | host number => exact only_consult hs m hact ⟨ha, hp.host number hact k, hk⟩

end Store

/-- A step gives a program no other builtins if the builtin that it calls does not. -/
theorem Control.execute_only_of {m : Nat} {st : Store} (hs : st.Only p) {c : Control}
    (hc : c.Only p)
    (hperform : ∀ action args k, c = .perform action args k → (st.perform m args k action).Only p) :
    (c.execute st m).Only p := by
  cases c with
  | evaluate node scope k => exact Store.only_evaluate hs m scope hc node
  | sequence rest scope last k =>
    cases rest with
    | nil => exact ⟨hs, hc.2, hc.1⟩
    | cons node rest => exact ⟨hs, hc.2⟩
  | arguments pos rest scope callee buffer filled k =>
    cases rest with
    | nil =>
      simp only [Control.execute]
      split
      · next control h =>
        exact ⟨hs, Value.only_call? hc.1 (Store.only_buffered hs buffer filled) hc.2 h⟩
      · exact hs
    | cons node rest => exact ⟨hs, hc⟩
  | bindings rest body scope k =>
    cases rest with
    | nil => exact ⟨hs, hc⟩
    | cons b rest =>
      simp only [Control.execute]
      split_ifs
      · exact ⟨hs, hc⟩
      · exact Store.only_bindNext hs m scope b.1 (v := .bool false) trivial rest body hc
  | enter closure args k =>
    exact ⟨hs.withWorld (World.only_enter hs.world closure hc.1), hc.2⟩
  | resume k v => exact Store.only_resume hs m hc.2 hc.1
  | perform action args k => exact hperform action args k rfl
  | report number result => exact Store.only_consult hs m hc.1 hc.2

/-- A step gives a program no other builtins. -/
theorem Control.execute_only {m : Nat} (hp : Provides p m) {st : Store} (hs : st.Only p)
    {c : Control} (hc : c.Only p) : (c.execute st m).Only p := by
  refine execute_only_of hs hc ?_
  rintro action args k rfl
  exact Store.only_perform hp hs hc.2.1 hc.2.2 hc.1

/-! ## Runs -/

theorem Store.only_modifyMachine {st : Store} (hs : st.Only p) (m : Nat) (f : Machine → Machine) :
    (st.modifyMachine m f).Only p :=
  ⟨hs.world, hs.buffers⟩

theorem Store.only_endRun {st : Store} (hs : st.Only p) (run : Run) (failure : Option Error) :
    (st.endRun run failure).Only p := by
  simp only [Store.endRun]
  split_ifs
  · exact ⟨⟨hs.world.heap, hs.world.host⟩, hs.buffers⟩
  · exact ⟨hs.world, hs.buffers⟩

namespace State

variable {st : Store} {run : Run} {waiting : List Suspended}

theorem only_fail (hs : st.Only p) (hw : ∀ s ∈ waiting, s.Only p) (e : Error) :
    (fail run waiting st e).Only p := by
  induction waiting generalizing run st with
  | nil => exact ⟨Store.only_endRun hs run _, trivial⟩
  | cons s waiting ih =>
    obtain ⟨hs₁, hw'⟩ := List.forall_mem_cons.1 hw
    obtain ⟨outer, resumption⟩ := s
    cases resumption with
    | value k => exact ih (Store.only_endRun hs run _) hw'
    | host number => exact ⟨Store.only_endRun hs run _, ⟨hs₁.2, trivial⟩, hs₁.1, hw'⟩

theorem only_succeed (hs : st.Only p) (hw : ∀ s ∈ waiting, s.Only p) {v : Value}
    (hv : v.Only p) : (succeed run waiting st v).Only p := by
  cases waiting with
  | nil => exact ⟨Store.only_endRun hs run _, hv⟩
  | cons s waiting =>
    obtain ⟨hs₁, hw'⟩ := List.forall_mem_cons.1 hw
    obtain ⟨outer, resumption⟩ := s
    cases resumption with
    | value k => exact ⟨Store.only_endRun hs run _, ⟨hs₁.2, hv⟩, hs₁.1, hw'⟩
    | host number => exact ⟨Store.only_endRun hs run _, ⟨hs₁.2, hv⟩, hs₁.1, hw'⟩

theorem only_conclude (hs : st.Only p) (hr : run.Only p) (hw : ∀ s ∈ waiting, s.Only p) :
    (conclude run waiting st).Only p := by
  unfold conclude
  split
  · next v h => exact only_succeed hs hw (hr v h)
  · exact only_fail hs hw _

theorem only_keep {s : Suspended} (h : s.Only p) (id : Nat) {v : Value} (hv : v.Only p) :
    (s.keep id v).Only p := by
  unfold Suspended.keep
  split_ifs
  · refine ⟨fun u hu => ?_, h.2⟩
    cases hu
    exact hv
  · exact h

theorem only_after (hr : run.Only p) (hw : ∀ s ∈ waiting, s.Only p) (m : Nat) {e : Effect}
    (he : e.Only p) : (after run m waiting e).Only p := by
  cases e with
  | advance st m control => exact ⟨he.1, he.2, hr, hw⟩
  | deliver st id v =>
    simp only [after, deliver]
    split_ifs
    · exact only_succeed he.1 hw he.2
    · refine only_conclude he.1 hr fun s hs => ?_
      obtain ⟨s', hs', rfl⟩ := List.mem_map.1 hs
      exact only_keep (hw s' hs') id he.2
  | idle st => exact only_conclude he hr hw
  | fail st e => exact only_fail he hw e
  | nest st node scope resumption =>
    refine ⟨⟨he.1.world, he.1.buffers⟩, by simp [Control.Only, Continuation.Only], ?_, ?_⟩
    · intro v hv
      cases hv
    · exact List.forall_mem_cons.2 ⟨⟨hr, he.2⟩, hw⟩

theorem only_execute {s : State} (hp : Provides p s.machine) (hs : s.Only p) :
    s.execute.Only p :=
  only_after hs.run hs.waiting s.machine (Control.execute_only hp hs.store hs.control)

theorem only_charge {s : State} (hs : s.Only p) : s.charge.Only p :=
  ⟨⟨hs.store.world, hs.store.buffers⟩, hs.control, hs.run, hs.waiting⟩

theorem only_bounce {s : State} (hs : s.Only p) (target : Target) : (s.bounce target).Only p := by
  simp only [bounce]
  split
  · exact only_fail (Store.only_modifyMachine hs.store _ _) hs.waiting _
  · split_ifs
    · exact only_fail (Store.only_modifyMachine hs.store _ _) hs.waiting _
    · exact ⟨Store.only_modifyMachine (Store.only_modifyMachine hs.store _ _) _ _, hs.control,
        hs.run, hs.waiting⟩

/-- A step keeps the builtins within reach. -/
theorem only_step {s : State} (hp : Provides p s.machine) (hs : s.Only p) : s.step.Only p := by
  unfold step
  split
  · exact only_execute hp hs
  · dsimp only
    split_ifs
    · exact only_bounce (only_charge hs) _
    · exact only_execute hp (only_charge hs)

end State

end Mycel
