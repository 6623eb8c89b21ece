import Mycel.Proofs.Machine.Confinement
import Mycel.Proofs.Syntax.Wholeness
import Mycel.Proofs.Token.Positions
import Mycel.Session

/-!
# The errors of parsed programs

A run of a parsed program in a new global scope, where it finds the builtins that write and data of
the host, fails only with an error that the program itself is to blame for, and that has the
position of one of its tokens.

`State.Sound` is the invariant that gives this: the trees that are still to be evaluated are whole,
in closures and in continuations as well, and no other builtins are within reach. It says so only
of what belongs to the run, which a `Realm` describes. What else there is in the world, such as
other global scopes, is out of reach.
-/

namespace Mycel

/-- What belongs to a run: positions of its program, the scopes and the buffers from certain ones
on, its number and its machine. -/
structure Realm where
  places : Pos → Prop
  scopes : ScopeId
  buffers : Nat
  run : Nat
  machine : Nat

/-- The classes of the errors that a program is to blame for. -/
def Code.ofPrograms : List Code := [.undefined, .type, .divideByZero, .notCallable, .assignTarget]

/-- An error without a cause that a program is to blame for, at one of some positions. -/
def Error.Sound (places : Pos → Prop) (e : Error) : Prop :=
  ∃ d, e = .report d ∧ d.code ∈ Code.ofPrograms ∧ places d.pos

/-! ## What belongs to a run -/

def Value.Sound (r : Realm) : Value → Prop
  | .closure c => c.body.Whole r.places ∧ r.scopes ≤ c.scope
  | .builtin _ _ action => action.Primitive
  | _ => True

def Continuation.Sound (r : Realm) : Continuation → Prop
  | .final run => run = r.run
  | .assign pos _ scope k => r.places pos ∧ r.scopes ≤ scope ∧ k.Sound r
  | .left pos o node scope k =>
    r.places pos ∧ o.Applicable ∧ node.Whole r.places ∧ r.scopes ≤ scope ∧ k.Sound r
  | .right pos o v k => r.places pos ∧ o.Applicable ∧ v.Sound r ∧ k.Sound r
  | .branch whenTrue whenFalse scope k =>
    (whenTrue.isPresent = true → whenTrue.Whole r.places) ∧
      (whenFalse.isPresent = true → whenFalse.Whole r.places) ∧ r.scopes ≤ scope ∧ k.Sound r
  | .sequence rest scope k => (∀ e ∈ rest, e.Whole r.places) ∧ r.scopes ≤ scope ∧ k.Sound r
  | .callee pos args scope k =>
    r.places pos ∧ (∀ e ∈ args, e.Whole r.places) ∧ r.scopes ≤ scope ∧ k.Sound r
  | .argument pos rest scope f buffer _ k =>
    r.places pos ∧ (∀ e ∈ rest, e.Whole r.places) ∧ r.scopes ≤ scope ∧ f.Sound r ∧
      r.buffers ≤ buffer ∧ k.Sound r
  | .bind _ rest body scope k =>
    (∀ b ∈ rest, b.2.isPresent = true → b.2.Whole r.places) ∧ body.Whole r.places ∧
      r.scopes ≤ scope ∧ k.Sound r
  | .applied _ | .again _ _ | .hosted _ => False

def Control.Sound (r : Realm) : Control → Prop
  | .evaluate node scope k => node.Whole r.places ∧ r.scopes ≤ scope ∧ k.Sound r
  | .sequence rest scope last k =>
    (∀ e ∈ rest, e.Whole r.places) ∧ r.scopes ≤ scope ∧ last.Sound r ∧ k.Sound r
  | .arguments pos rest scope callee buffer _ k =>
    r.places pos ∧ (∀ e ∈ rest, e.Whole r.places) ∧ r.scopes ≤ scope ∧ callee.Sound r ∧
      r.buffers ≤ buffer ∧ k.Sound r
  | .bindings rest body scope k =>
    (∀ b ∈ rest, b.2.isPresent = true → b.2.Whole r.places) ∧ body.Whole r.places ∧
      r.scopes ≤ scope ∧ k.Sound r
  | .enter c args k =>
    (c.body.Whole r.places ∧ r.scopes ≤ c.scope) ∧ (∀ v ∈ args, v.Sound r) ∧ k.Sound r
  | .resume k v => k.Sound r ∧ v.Sound r
  | .perform action _ k => action.Primitive ∧ k.Sound r
  | .report _ _ => False

/-- A scope of the run: the one around it is a scope of the run, too. -/
def Frame.Sound (r : Realm) (f : Frame) : Prop :=
  (∀ s ∈ f.parent, r.scopes ≤ s) ∧ ∀ b ∈ f.bindings, b.2.Sound r

structure Heap.Sound (r : Realm) (h : Heap) : Prop where
  next : r.scopes ≤ h.next
  frames : ∀ s f, r.scopes ≤ s → h.frames[s]? = some f → f.Sound r

/-- The scopes of the run are sound, every write succeeds and nothing stops the evaluation. -/
structure World.Sound (r : Realm) (w : World) : Prop where
  heap : w.heap.Sound r
  room : w.output.room = none
  canceled : w.canceled = none

structure Store.Sound (r : Realm) (st : Store) : Prop where
  world : st.world.Sound r
  size : r.buffers ≤ st.buffers.size
  buffers : ∀ i vs, r.buffers ≤ i → st.buffers[i]? = some vs → ∀ v ∈ vs, v.Sound r
  limit : (st.machine r.machine).settings.maxBounces = 0

structure State.Sound (r : Realm) (s : State) : Prop where
  store : s.store.Sound r
  control : s.control.Sound r
  run : s.run.id = r.run
  machine : s.run.machine = r.machine
  waiting : s.waiting = []

variable {r : Realm}

/-! ## Scopes -/

namespace Heap

variable {h : Heap}

theorem next_define (h : Heap) (s : ScopeId) (name : Text) (v : Value) :
    (h.define s name v).next = h.next := by
  simp [next, define]

theorem sound_define (hh : h.Sound r) (s : ScopeId) (name : Text) {v : Value} (hv : v.Sound r) :
    (h.define s name v).Sound r := by
  refine ⟨(next_define h s name v).symm ▸ hh.next, fun t f ht hf => ?_⟩
  rw [define, Array.getElem?_modify] at hf
  split_ifs at hf with hst
  · obtain ⟨g, hg, rfl⟩ := Option.map_eq_some_iff.1 hf
    obtain ⟨hparent, hbindings⟩ := hh.frames t g ht hg
    refine ⟨hparent, fun b hb => ?_⟩
    rcases mem_put hb with hb | hb
    · exact hbindings b hb
    · rwa [hb]
  · exact hh.frames t f ht hf

/-- A new scope, with a scope of the run around it or with none. -/
theorem sound_push (hh : h.Sound r) {parent : Option ScopeId}
    (hparent : ∀ s ∈ parent, r.scopes ≤ s) : Sound r ⟨h.frames.push ⟨parent, []⟩⟩ := by
  refine ⟨?_, fun s f hs hf => ?_⟩
  · rw [next, Array.size_push]
    exact Nat.le_succ_of_le hh.next
  · rw [Array.getElem?_push] at hf
    split_ifs at hf
    · cases hf
      exact ⟨hparent, List.forall_mem_nil _⟩
    · exact hh.frames s f hs hf

theorem le_lookupWithin (hh : h.Sound r) {name : Text} {n : Nat} {s t : ScopeId}
    (hs : r.scopes ≤ s) (ht : h.lookupWithin name n s = some t) : r.scopes ≤ t := by
  induction n generalizing s with
  | zero => cases ht
  | succ n ih =>
    simp only [lookupWithin] at ht
    split at ht
    · cases ht
    · rename_i f hf
      split_ifs at ht
      · cases ht
        exact hs
      · split at ht
        · cases ht
        · rename_i u hu
          exact ih ((hh.frames s f hs hf).1 u hu) ht

theorem sound_get? (hh : h.Sound r) {s : ScopeId} (hs : r.scopes ≤ s) {name : Text} {v : Value}
    (hv : h.get? s name = some v) : v.Sound r := by
  simp only [get?] at hv
  split at hv
  · cases hv
  · rename_i t ht
    obtain ⟨f, hf, hget⟩ := Option.bind_eq_some_iff.1 hv
    obtain ⟨b, hfind, rfl⟩ := Option.map_eq_some_iff.1 hget
    have hframe := hh.frames t f (le_lookupWithin hh hs ht) hf
    exact hframe.2 b (List.mem_of_find?_eq_some hfind)

end Heap

namespace World

variable {w : World}

theorem Sound.withHeap (hw : w.Sound r) {h : Heap} (hh : h.Sound r) :
    Sound r { w with heap := h } :=
  ⟨hh, hw.room, hw.canceled⟩

theorem sound_define (hw : w.Sound r) (s : ScopeId) (name : Text) {v : Value} (hv : v.Sound r) :
    (w.define s name v).Sound r :=
  hw.withHeap (Heap.sound_define hw.heap s name hv)

theorem sound_bindIn (hw : w.Sound r) {s : ScopeId} (hs : r.scopes ≤ s) (name : Text) {v : Value}
    (hv : v.Sound r) : (w.bindIn s name v).1.Sound r ∧ r.scopes ≤ (w.bindIn s name v).2 := by
  have hparent : ∀ t ∈ some s, r.scopes ≤ t := by simpa using hs
  have hpush := Heap.sound_push hw.heap hparent
  exact ⟨hw.withHeap (Heap.sound_define hpush _ name hv), hw.heap.next⟩

theorem sound_makeClosure (hw : w.Sound r) {s : ScopeId} (hs : r.scopes ≤ s) (name : Option Text)
    (params : List Text) {body : Node} (hbody : body.Whole r.places) :
    (w.makeClosure s name params body).1.Sound r ∧
      (w.makeClosure s name params body).2.Sound r := by
  have hfresh : Sound r { w with fresh := w.fresh + 1 } := ⟨hw.heap, hw.room, hw.canceled⟩
  cases name with
  | none => exact ⟨hfresh, hbody, hs⟩
  | some n =>
    have hv : Value.Sound r (.closure ⟨w.fresh, some n, params, body, w.heap.next⟩) :=
      ⟨hbody, hw.heap.next⟩
    exact ⟨(sound_bindIn hfresh hs n hv).1, hv⟩

theorem sound_bindParams (s : ScopeId) (params : List Text) {args : List Value}
    (ha : ∀ v ∈ args, v.Sound r) (hw : w.Sound r) : (bindParams s w params args).Sound r := by
  induction params generalizing w args with
  | nil => exact hw
  | cons p ps ih =>
    cases args with
    | nil => exact ih ha (sound_define hw s p trivial)
    | cons v vs =>
      obtain ⟨hv, hvs⟩ := List.forall_mem_cons.1 ha
      exact ih hvs (sound_define hw s p hv)

theorem sound_enter (hw : w.Sound r) {c : Closure} (hc : r.scopes ≤ c.scope) {args : List Value}
    (ha : ∀ v ∈ args, v.Sound r) : (w.enter c args).1.Sound r ∧ r.scopes ≤ (w.enter c args).2 := by
  have hparent : ∀ t ∈ some c.scope, r.scopes ≤ t := by simpa using hc
  have hpush := hw.withHeap (Heap.sound_push hw.heap hparent)
  exact ⟨sound_bindParams _ c.params ha hpush, hw.heap.next⟩

end World

/-! ## Faults -/

theorem Value.IsData.sound {v : Value} (h : v.IsData) : v.Sound r := by
  cases v with
  | closure | builtin => exact h.elim
  | _ => trivial

theorem sound_error {f : Fault} {pos : Pos} {places : Pos → Prop} (hcause : f.cause? = none)
    (hcode : Code.ofPrograms.contains f.code = true) (hpos : places pos) :
    (f.error pos).Sound places := by
  refine ⟨f.diagnostic pos, ?_, List.contains_iff_mem.1 hcode, hpos⟩
  rw [Fault.error, hcause]

namespace Operator

variable {o : Operator} {a b : Value} {fault : Fault}

theorem sound_apply (ha : a.Sound r) (hb : b.Sound r) {v : Value} (h : o.apply a b = .ok v) :
    v.Sound r := by
  rcases apply_ok h with hv | rfl | rfl
  · exact hv.sound
  · exact ha
  · exact hb

theorem sound_apply_error {pos : Pos} {places : Pos → Prop} (ho : o.Applicable)
    (hpos : places pos) (h : o.apply a b = .error fault) : (fault.error pos).Sound places := by
  have hcases := apply_cases o a b
  rw [h] at hcases
  obtain (rfl | ⟨kind, shown, rfl⟩) | ha | hb | ⟨spelling, hother, _⟩ := hcases
  · exact sound_error rfl rfl hpos
  · exact sound_error rfl rfl hpos
  · cases ha
  · cases hb
  · exact absurd hother (ho spelling)

end Operator

/-! ## Steps -/

/-- A step of a run goes on, ends the run with a value, or fails with an error of its program. -/
def Effect.Sound (r : Realm) : Effect → Prop
  | .advance st _ control => st.Sound r ∧ control.Sound r
  | .deliver _ run _ => run = r.run
  | .fail _ e => e.Sound r.places
  | .idle _ | .nest _ _ _ _ => False

namespace Store

variable {st : Store}

theorem Sound.withWorld (hs : st.Sound r) {w : World} (hw : w.Sound r) :
    Sound r { st with world := w } :=
  ⟨hw, hs.size, hs.buffers, hs.limit⟩

theorem sound_evaluate (hs : st.Sound r) (m : Nat) {scope : ScopeId} (hscope : r.scopes ≤ scope)
    {k : Continuation} (hk : k.Sound r) {node : Node} (h : node.Whole r.places) :
    (st.evaluate m scope k node).Sound r := by
  cases h with
  | number | string | bool => exact ⟨hs, hk, trivial⟩
  | @identifier pos name hpos =>
    simp only [evaluate]
    split
    · rename_i v hv
      exact ⟨hs, hk, Heap.sound_get? hs.world.heap hscope hv⟩
    · exact sound_error rfl rfl hpos
  | @assign pos target value hpos htarget hvalue =>
    cases htarget with
    | identifier hpos => exact ⟨hs, hvalue, hscope, hpos, hscope, hk⟩
    | _ => exact sound_error rfl rfl hpos
  | binary hpos ho hleft hright => exact ⟨hs, hleft, hscope, hpos, ho, hright, hscope, hk⟩
  | branch hcondition htrue hfalse => exact ⟨hs, hcondition, hscope, htrue, hfalse, hscope, hk⟩
  | @lambda pos name params body hbody =>
    obtain ⟨hw, hv⟩ := World.sound_makeClosure hs.world hscope name params hbody
    exact ⟨hs.withWorld hw, hk, hv⟩
  | program hbody => exact ⟨hs, hbody, hscope, trivial, hk⟩
  | call hpos hcallee hargs => exact ⟨hs, hcallee, hscope, hpos, hargs, hscope, hk⟩
  | binding hbindings hbody => exact ⟨hs, hbindings, hbody, hscope, hk⟩

theorem sound_addBuffer (hs : st.Sound r) : st.addBuffer.1.Sound r := by
  refine ⟨hs.world, ?_, fun i vs hi hvs u hu => ?_, hs.limit⟩
  · simp only [addBuffer, Array.size_push]
    exact Nat.le_succ_of_le hs.size
  · exact hs.buffers i vs hi (mem_addBuffer hvs hu) u hu

theorem sound_fillBuffer (hs : st.Sound r) (buffer filled : Nat) {v : Value} (hv : v.Sound r) :
    (st.fillBuffer buffer filled v).Sound r := by
  refine ⟨hs.world, ?_, fun i vs hi hvs u hu => ?_, hs.limit⟩
  · simpa [fillBuffer] using hs.size
  · rcases mem_fillBuffer hvs hu with rfl | ⟨us, hus, hu⟩
    · exact hv
    · exact hs.buffers i us hi hus u hu

theorem sound_buffered (hs : st.Sound r) {buffer : Nat} (hb : r.buffers ≤ buffer) (filled : Nat) :
    ∀ v ∈ st.buffered buffer filled, v.Sound r := by
  intro v hv
  obtain ⟨vs, hvs, hv⟩ := mem_buffered hv
  exact hs.buffers buffer vs hb hvs v hv

theorem sound_bindNext (hs : st.Sound r) (m : Nat) {scope : ScopeId} (hscope : r.scopes ≤ scope)
    (name : Text) {v : Value} (hv : v.Sound r) {rest : List (Text × Node)}
    (hrest : ∀ b ∈ rest, b.2.isPresent = true → b.2.Whole r.places) {body : Node}
    (hbody : body.Whole r.places) {k : Continuation} (hk : k.Sound r) :
    (st.bindNext m scope name v rest body k).Sound r := by
  obtain ⟨hw, hinside⟩ := World.sound_bindIn hs.world hscope name hv
  exact ⟨hs.withWorld hw, hrest, hbody, hinside, hk⟩

theorem sound_resume (hs : st.Sound r) (m : Nat) {v : Value} (hv : v.Sound r) {k : Continuation}
    (hk : k.Sound r) : (st.resume m v k).Sound r := by
  cases k with
  | final run => exact hk
  | assign pos name scope k =>
    obtain ⟨hpos, hscope, hk⟩ := hk
    simp only [resume]
    split
    · exact ⟨hs.withWorld (World.sound_define hs.world _ name hv), hk, hv⟩
    · exact sound_error rfl rfl hpos
  | left pos o node scope k =>
    obtain ⟨hpos, ho, hnode, hscope, hk⟩ := hk
    exact ⟨hs, hnode, hscope, hpos, ho, hv, hk⟩
  | right pos o a k =>
    obtain ⟨hpos, ho, ha, hk⟩ := hk
    simp only [resume]
    split
    · rename_i result happly
      exact ⟨hs, hk, Operator.sound_apply ha hv happly⟩
    · rename_i fault happly
      exact Operator.sound_apply_error ho hpos happly
  | branch whenTrue whenFalse scope k =>
    obtain ⟨htrue, hfalse, hscope, hk⟩ := hk
    simp only [resume]
    split_ifs with _ hpresent hpresent
    · exact ⟨hs, htrue hpresent, hscope, hk⟩
    · exact ⟨hs, hk, hv⟩
    · exact ⟨hs, hfalse hpresent, hscope, hk⟩
    · exact ⟨hs, hk, trivial⟩
  | sequence rest scope k =>
    obtain ⟨hrest, hscope, hk⟩ := hk
    exact ⟨hs, hrest, hscope, hv, hk⟩
  | callee pos args scope k =>
    obtain ⟨hpos, hargs, hscope, hk⟩ := hk
    exact ⟨sound_addBuffer hs, hpos, hargs, hscope, hv, hs.size, hk⟩
  | argument pos rest scope f buffer filled k => exact ⟨sound_fillBuffer hs buffer filled hv, hk⟩
  | bind name rest body scope k =>
    obtain ⟨hrest, hbody, hscope, hk⟩ := hk
    exact sound_bindNext hs m hscope name hv hrest hbody hk
  | applied | again | hosted => exact hk.elim

theorem sound_writeFor (hs : st.Sound r) (m : Nat) (primitive : String) (t : Text)
    {k : Continuation} (hk : k.Sound r) : (st.writeFor m primitive t k).Sound r := by
  have hwrite : st.world.output.write? t =
      some ⟨t :: st.world.output.chunks, none, st.world.output.reason⟩ := by
    rw [Output.write?, hs.world.room]
  simp only [writeFor, hwrite]
  exact ⟨hs.withWorld ⟨hs.world.heap, rfl, hs.world.canceled⟩, hk, trivial⟩

theorem sound_perform (hs : st.Sound r) (m : Nat) (args : List Value) {k : Continuation}
    (hk : k.Sound r) {action : Action} (h : action.Primitive) :
    (st.perform m args k action).Sound r := by
  cases action with
  | print | println => exact sound_writeFor hs m _ _ hk
  | _ => exact h.elim

end Store

theorem Value.sound_call? {f : Value} {args : List Value} {k : Continuation} {control : Control}
    (hf : f.Sound r) (hargs : ∀ v ∈ args, v.Sound r) (hk : k.Sound r)
    (h : f.call? args k = some control) : control.Sound r := by
  cases f with
  | closure c =>
    cases h
    exact ⟨hf, hargs, hk⟩
  | builtin id name action =>
    cases h
    exact ⟨hf, hk⟩
  | _ => cases h

/-- What a step of a run does. -/
theorem Control.sound_execute {st : Store} (hs : st.Sound r) (m : Nat) {c : Control}
    (hc : c.Sound r) : (c.execute st m).Sound r := by
  cases c with
  | evaluate node scope k =>
    obtain ⟨hnode, hscope, hk⟩ := hc
    exact Store.sound_evaluate hs m hscope hk hnode
  | sequence rest scope last k =>
    obtain ⟨hrest, hscope, hlast, hk⟩ := hc
    cases rest with
    | nil => exact ⟨hs, hk, hlast⟩
    | cons node rest =>
      obtain ⟨hnode, hrest⟩ := List.forall_mem_cons.1 hrest
      exact ⟨hs, hnode, hscope, hrest, hscope, hk⟩
  | arguments pos rest scope f buffer filled k =>
    obtain ⟨hpos, hrest, hscope, hf, hbuffer, hk⟩ := hc
    cases rest with
    | nil =>
      simp only [Control.execute]
      split
      · rename_i control hcall
        have hargs := Store.sound_buffered hs hbuffer filled
        exact ⟨hs, Value.sound_call? hf hargs hk hcall⟩
      · exact sound_error rfl rfl hpos
    | cons node rest =>
      obtain ⟨hnode, hrest⟩ := List.forall_mem_cons.1 hrest
      exact ⟨hs, hnode, hscope, hpos, hrest, hscope, hf, hbuffer, hk⟩
  | bindings rest body scope k =>
    obtain ⟨hrest, hbody, hscope, hk⟩ := hc
    cases rest with
    | nil => exact ⟨hs, hbody, hscope, hk⟩
    | cons b rest =>
      obtain ⟨hb, hrest⟩ := List.forall_mem_cons.1 hrest
      simp only [Control.execute]
      split_ifs with hpresent
      · exact ⟨hs, hb hpresent, hscope, hrest, hbody, hscope, hk⟩
      · exact Store.sound_bindNext hs m hscope b.1 (v := .bool false) trivial hrest hbody hk
  | enter c args k =>
    obtain ⟨⟨hbody, hscope⟩, hargs, hk⟩ := hc
    obtain ⟨hw, hinside⟩ := World.sound_enter hs.world hscope hargs
    exact ⟨hs.withWorld hw, hbody, hinside, hk⟩
  | resume k v => exact Store.sound_resume hs m hc.2 hc.1
  | perform action args k => exact Store.sound_perform hs m args hc.2 hc.1
  | report => exact hc.elim

/-! ## Runs -/

/-- A run goes on, or it ends, with a value or with an error of its program. -/
def Progress.Sound (r : Realm) : Progress → Prop
  | .running s => s.Sound r
  | .finished _ (.ok _) => True
  | .finished _ (.error e) => e.Sound r.places

namespace State

variable {s : State}

theorem sound_execute (hs : s.Sound r) : s.execute.Sound r := by
  have heffect := Control.sound_execute hs.store s.machine hs.control
  obtain ⟨st, m, control, run, waiting⟩ := s
  obtain rfl : waiting = [] := hs.waiting
  simp only [execute]
  cases he : control.execute st m with
  | advance st' m' control' =>
    rw [he] at heffect
    exact ⟨heffect.1, heffect.2, hs.run, hs.machine, rfl⟩
  | deliver st' id v =>
    rw [he] at heffect
    have hid : id = run.id := heffect.trans hs.run.symm
    simp only [after, deliver, if_pos hid]
    trivial
  | fail st' e =>
    rw [he] at heffect
    exact heffect
  | idle | nest =>
    rw [he] at heffect
    exact heffect.elim

theorem sound_modifyMachine {st : Store} (hs : st.Sound r) (m : Nat) {f : Machine → Machine}
    (hf : ∀ x, (f x).settings = x.settings) : (st.modifyMachine m f).Sound r :=
  ⟨hs.world, hs.size, hs.buffers, (Store.settings_modifyMachine st m r.machine hf).symm ▸ hs.limit⟩

theorem sound_charge (hs : s.Sound r) : s.charge.Sound r :=
  ⟨sound_modifyMachine hs.store _ fun _ => rfl, hs.control, hs.run, hs.machine, hs.waiting⟩

theorem sound_bounce (hs : s.Sound r) (target : Target) : (s.bounce target).Sound r := by
  obtain ⟨st, m, control, run, waiting⟩ := s
  have hmachine : run.machine = r.machine := hs.machine
  have hcounted : Store.Sound r (st.modifyMachine run.machine fun m =>
      { m with bounces := m.bounces + 1 }) := sound_modifyMachine hs.store _ fun _ => rfl
  have hlimit := hcounted.limit
  rw [← hmachine] at hlimit
  simp only [bounce, hcounted.world.canceled, hlimit]
  exact ⟨sound_modifyMachine hcounted _ fun _ => rfl, hs.control, hs.run, hs.machine, hs.waiting⟩

theorem sound_step (hs : s.Sound r) : s.step.Sound r := by
  unfold step
  split
  · exact sound_execute hs
  · dsimp only
    split_ifs
    · exact sound_bounce (sound_charge hs) _
    · exact sound_execute (sound_charge hs)

/-- A run that fails does so with an error of its program. -/
theorem sound_runWithin {n : Nat} {st : Store} {e : Error} (hs : s.Sound r)
    (h : s.runWithin n = some (st, .error e)) : e.Sound r.places := by
  induction n generalizing s with
  | zero => cases h
  | succ n ih =>
    have hstep := sound_step hs
    simp only [runWithin] at h
    split at h
    · rename_i s' hs'
      rw [hs'] at hstep
      exact ih hstep h
    · rename_i hfinished
      cases h
      rw [hfinished] at hstep
      exact hstep

end State

/-! ## New global scopes -/

/-- A host's value that is not a callable. -/
def HostValue.IsData : HostValue → Prop
  | .closure _ _ | .builtin _ => False
  | _ => True

theorem HostValue.sound_toValue {d : HostValue} (h : d.IsData) (w : World) :
    ∃ v : Value, d.toValue w = (w, v) ∧ v.Sound r := by
  cases d with
  | closure | builtin => exact h.elim
  | _ => exact ⟨_, rfl, trivial⟩

theorem HostValue.sound_defineAll (scope : ScopeId) {data : List (Text × HostValue)}
    (hdata : ∀ d ∈ data, d.2.IsData) {w : World} (hw : w.Sound r) :
    (HostValue.defineAll scope w data).Sound r := by
  induction data generalizing w with
  | nil => exact hw
  | cons d data ih =>
    obtain ⟨hd, hdata⟩ := List.forall_mem_cons.1 hdata
    obtain ⟨v, hv, hsound⟩ := HostValue.sound_toValue hd w
    simp only [HostValue.defineAll, List.foldl_cons, hv]
    exact ih hdata (World.sound_define hw scope d.1 hsound)

theorem World.sound_addBuiltins (s : ScopeId) {bs : List (String × Action)}
    (hbs : ∀ b ∈ bs, b.2.Primitive) {w : World} (hw : w.Sound r) :
    (w.addBuiltins s bs).Sound r := by
  induction bs generalizing w with
  | nil => exact hw
  | cons b bs ih =>
    obtain ⟨hb, hbs⟩ := List.forall_mem_cons.1 hbs
    refine ih hbs ⟨?_, hw.room, hw.canceled⟩
    exact Heap.sound_define hw.heap s _ (v := .builtin w.fresh (bytes b.1) b.2) hb

/-- The scopes from the next one on are all sound: there are none yet. -/
theorem World.sound_globals {w : World} (hroom : w.output.room = none)
    (hcanceled : w.canceled = none) (hr : r.scopes = w.heap.next) :
    w.globals.1.Sound r ∧ r.scopes ≤ w.globals.2 := by
  have hnew : w.heap.Sound r := by
    refine ⟨Nat.le_of_eq hr, fun s f hs hf => ?_⟩
    rw [hr] at hs
    rw [Array.getElem?_eq_none hs] at hf
    cases hf
  have hroot : World.Sound r { w with heap := w.heap.root } :=
    ⟨Heap.sound_push hnew nofun, hroom, hcanceled⟩
  refine ⟨World.sound_addBuiltins _ (fun b hb => ?_) hroot, Nat.le_of_eq hr⟩
  simp only [World.primitives, List.mem_cons, List.not_mem_nil, or_false] at hb
  rcases hb with rfl | rfl <;> trivial

namespace Store

/-- Adds a global scope, with values of the host. -/
def withGlobals (st : Store) (data : List (Text × HostValue)) : Store × ScopeId :=
  let (world, scope) := st.world.globals
  ({ st with world := HostValue.defineAll scope world data }, scope)

/-- What will belong to the next run on a machine, if it gets a new global scope. -/
def realm (st : Store) (m : Nat) (places : Pos → Prop) : Realm :=
  ⟨places, st.world.heap.next, st.buffers.size, st.runs, m⟩

theorem sound_withGlobals {st : Store} (hroom : st.world.output.room = none)
    (hcanceled : st.world.canceled = none) {m : Nat}
    (hlimit : (st.machine m).settings.maxBounces = 0) {data : List (Text × HostValue)}
    (hdata : ∀ d ∈ data, d.2.IsData) (places : Pos → Prop) :
    (st.withGlobals data).1.Sound (st.realm m places) ∧
      (st.realm m places).scopes ≤ (st.withGlobals data).2 := by
  obtain ⟨hw, hscope⟩ :=
    World.sound_globals (r := st.realm m places) hroom hcanceled rfl
  have hglobals := HostValue.sound_defineAll st.world.globals.2 hdata hw
  refine ⟨⟨hglobals, Nat.le_refl _, fun i vs hi hvs => ?_, hlimit⟩, hscope⟩
  have hnone : st.buffers[i]? = none := Array.getElem?_eq_none hi
  cases hnone.symm.trans hvs

theorem sound_start {st : Store} (hs : st.Sound r) (hrun : st.runs = r.run) {node : Node}
    (hnode : node.Whole r.places) {scope : ScopeId} (hscope : r.scopes ≤ scope) :
    (st.start r.machine node scope).Sound r := by
  exact ⟨⟨hs.world, hs.size, hs.buffers, (settings_beginRun st _ _).symm ▸ hs.limit⟩,
    ⟨hnode, hscope, hrun⟩, hrun, rfl, rfl⟩

/-- A parsed program that runs in a new global scope, with data of the host, fails only with an
error that the program is to blame for, at one of its tokens. -/
theorem runWithin_withGlobals_error {st : Store} (hroom : st.world.output.room = none)
    (hcanceled : st.world.canceled = none) {m : Nat}
    (hlimit : (st.machine m).settings.maxBounces = 0) {data : List (Text × HostValue)}
    (hdata : ∀ d ∈ data, d.2.IsData) {source : Text} {p : Program}
    (hparse : Program.parse source = .ok p) {n : Nat} {st' : Store} {e : Error}
    (hrun : (st.withGlobals data).1.runWithin n m p.toNode (st.withGlobals data).2 =
      some (st', .error e)) :
    ∃ ts d, (Cursor.ofSource source).Scans ts ∧ e = .report d ∧
      d.code ∈ [.undefined, .type, .divideByZero, .notCallable, .assignTarget] ∧
      (∃ t ∈ ts, t.pos = d.pos) ∧ d.pos.Within source := by
  obtain ⟨ts, hscans, hwhole⟩ := Program.whole_of_parse hparse
  obtain ⟨hstore, hscope⟩ :=
    sound_withGlobals hroom hcanceled hlimit hdata fun pos => ∃ t ∈ ts, t.pos = pos
  have hstart := sound_start hstore rfl hwhole hscope
  obtain ⟨d, rfl, hcode, t, ht, hpos⟩ := State.sound_runWithin hstart hrun
  refine ⟨ts, d, hscans, rfl, hcode, ⟨t, ht, hpos⟩, ?_⟩
  rw [← hpos]
  exact hscans.within ⟨[], rfl, rfl⟩ t ht

/-- The program of `x(true)`. -/
def callText : Program :=
  ⟨⟨1, 1⟩, [.call ⟨1, 1⟩ (.identifier ⟨1, 1⟩ (bytes "x")) [.bool ⟨1, 3⟩ true]]⟩

/-- No scopes yet, and a machine that bounces every third step. -/
def freshStore : Store := { machines := #[{ settings := { stackBudget := 3 } }] }

/-- A global scope in which `x` is a text. -/
def textStore : Store × ScopeId := freshStore.withGlobals [(bytes "x", .text (bytes "hi"))]

/-- A text cannot be called, and the error of a program that calls one has a position. -/
theorem runWithin_callText_error : ∃ st d,
    textStore.1.runWithin 40 0 callText.toNode textStore.2 = some (st, .error (.report d)) ∧
      d.code = .notCallable ∧ d.pos.Within (bytes "x(true)") := by
  have hparse : Program.parse (bytes "x(true)") = .ok callText := rfl
  have hdata : ∀ d ∈ [(bytes "x", HostValue.text (bytes "hi"))], d.2.IsData := by
    simp [HostValue.IsData]
  have hroom : freshStore.world.output.room = none := rfl
  have hlimit : (freshStore.machine 0).settings.maxBounces = 0 := rfl
  obtain ⟨st, d, hrun, hcode⟩ : ∃ st d, textStore.1.runWithin 40 0 callText.toNode textStore.2 =
      some (st, .error (.report d)) ∧ d.code = .notCallable := ⟨_, _, rfl, rfl⟩
  obtain ⟨_, _, _, heq, _, _, hwithin⟩ :=
    runWithin_withGlobals_error hroom rfl hlimit hdata hparse hrun
  cases heq
  exact ⟨st, d, hrun, hcode, hwithin⟩

end Store

end Mycel
