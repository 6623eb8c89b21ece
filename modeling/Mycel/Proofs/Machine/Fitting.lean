import Mycel.Proofs.Machine.Confinement
import Mycel.Proofs.Machine.Frames
import Mycel.Proofs.Syntax.Scoping

/-!
# Nodes and the scopes where they are evaluated

Programs that are evaluated one after another in the same global scope share what it binds, and the
closures of one are called by the next. Still each node is evaluated where the scopes around bind
what its static scope says.

`State.Fits` is the invariant that gives this. Whatever is still to be evaluated, in closures and in
continuations as well, occurs in one of the programs, with the static scope that is seen from the
scope where it will be evaluated (`Ground.Sees`). A step makes the heap grow, and what fits in a
heap fits in one that has grown.
-/

namespace Mycel

/-- What a session stands on: the programs so far, the global scope, and the first scope and the
first buffer that are new since it began. -/
structure Ground where
  programs : List Program
  globals : ScopeId
  scopes : ScopeId
  buffers : Nat

namespace Ground

/-- From a scope outward there are the scopes `inner`, which the session has made and which bind the
names of `σ`, and then the global one. -/
structure Lays (g : Ground) (h : Heap) (s : ScopeId) (σ : Scoping) (inner : List ScopeId) :
    Prop where
  outward : h.Outward s (inner ++ [g.globals])
  sorted : (inner ++ [g.globals]).Pairwise (· > ·)
  own : ∀ t ∈ inner, g.scopes ≤ t
  names : inner.map h.nameSet = σ

/-- In one of the programs, `P` holds with the static scope that is seen from a scope. -/
def Sees (g : Ground) (h : Heap) (s : ScopeId) (P : Node → Scoping → Prop) : Prop :=
  ∃ p ∈ g.programs, ∃ σ inner, P p.toNode σ ∧ g.Lays h s σ inner

end Ground

/-! ## What fits -/

/-- A node can be evaluated in a scope. -/
def Node.Fits (g : Ground) (h : Heap) (s : ScopeId) (e : Node) : Prop :=
  g.Sees h s fun root σ => root.Occurs σ e

/-- The rest of a `let` can be evaluated in a scope, after `bound` has been added to it. -/
def Node.FitsLet (g : Ground) (h : Heap) (s : ScopeId) (bound : Scoping)
    (rest : List (Text × Node)) (body : Node) : Prop :=
  g.Sees h s fun root σ => root.OccursLet body (bound ++ σ) rest

/-- A closure can be called: its body occurs with the parameters added to its scope. -/
def Closure.Fits (g : Ground) (h : Heap) (c : Closure) : Prop :=
  g.Sees h c.scope fun root σ => root.Occurs (c.params.toFinset :: σ) c.body

def Value.Fits (g : Ground) (h : Heap) : Value → Prop
  | .closure c => c.Fits g h
  | .builtin _ _ action => action.Primitive
  | _ => True

def Continuation.Fits (g : Ground) (h : Heap) : Continuation → Prop
  | .final _ => True
  | .assign pos name scope k => Node.Fits g h scope (.identifier pos name) ∧ k.Fits g h
  | .left _ _ node scope k => node.Fits g h scope ∧ k.Fits g h
  | .right _ _ v k => v.Fits g h ∧ k.Fits g h
  | .branch whenTrue whenFalse scope k =>
    (whenTrue.isPresent = true → whenTrue.Fits g h scope) ∧
      (whenFalse.isPresent = true → whenFalse.Fits g h scope) ∧ k.Fits g h
  | .sequence rest scope k => (∀ e ∈ rest, Node.Fits g h scope e) ∧ k.Fits g h
  | .callee _ args scope k => (∀ e ∈ args, Node.Fits g h scope e) ∧ k.Fits g h
  | .argument _ rest scope f buffer _ k =>
    (∀ e ∈ rest, Node.Fits g h scope e) ∧ f.Fits g h ∧ g.buffers ≤ buffer ∧ k.Fits g h
  | .bind name rest body scope k => Node.FitsLet g h scope [{name}] rest body ∧ k.Fits g h
  | .applied _ | .again _ _ | .hosted _ => False

def Control.Fits (g : Ground) (h : Heap) : Control → Prop
  | .evaluate node scope k => node.Fits g h scope ∧ k.Fits g h
  | .sequence rest scope last k =>
    (∀ e ∈ rest, Node.Fits g h scope e) ∧ last.Fits g h ∧ k.Fits g h
  | .arguments _ rest scope callee buffer _ k =>
    (∀ e ∈ rest, Node.Fits g h scope e) ∧ callee.Fits g h ∧ g.buffers ≤ buffer ∧ k.Fits g h
  | .bindings rest body scope k => Node.FitsLet g h scope [] rest body ∧ k.Fits g h
  | .enter c args k => c.Fits g h ∧ (∀ v ∈ args, Value.Fits g h v) ∧ k.Fits g h
  | .resume k v => k.Fits g h ∧ v.Fits g h
  | .perform action _ k => action.Primitive ∧ k.Fits g h
  | .report _ _ => False

/-- The global scope is a root, and the scopes of the session bind values that fit. -/
structure Heap.Fits (g : Ground) (h : Heap) : Prop where
  root : ∃ f, h.frames[g.globals]? = some f ∧ f.parent = none
  globals : g.globals < g.scopes
  next : g.scopes ≤ h.next
  values : ∀ s f, s = g.globals ∨ g.scopes ≤ s → h.frames[s]? = some f →
    ∀ b ∈ f.bindings, b.2.Fits g h

structure Store.Fits (g : Ground) (st : Store) : Prop where
  heap : st.world.heap.Fits g
  size : g.buffers ≤ st.buffers.size
  buffers : ∀ i vs, g.buffers ≤ i → st.buffers[i]? = some vs → ∀ v ∈ vs, v.Fits g st.world.heap

structure State.Fits (g : Ground) (s : State) : Prop where
  store : s.store.Fits g
  control : s.control.Fits g s.store.world.heap
  waiting : s.waiting = []

variable {g : Ground} {h h' : Heap} {s : ScopeId}

/-! ## Growth -/

namespace Ground

variable {σ : Scoping} {inner : List ScopeId} {P Q : Node → Scoping → Prop}

theorem Lays.grows (hl : g.Lays h s σ inner) (hh : h.Grows h') : g.Lays h' s σ inner :=
  ⟨hl.outward.grows hh, hl.sorted, hl.own, (hl.outward.map_nameSet hh).trans hl.names⟩

theorem Sees.grows (hs : g.Sees h s P) (hh : h.Grows h') : g.Sees h' s P := by
  obtain ⟨p, hp, σ, inner, hP, hl⟩ := hs
  exact ⟨p, hp, σ, inner, hP, hl.grows hh⟩

theorem Sees.imp (hs : g.Sees h s P) (hPQ : ∀ p ∈ g.programs, ∀ σ, P p.toNode σ → Q p.toNode σ) :
    g.Sees h s Q := by
  obtain ⟨p, hp, σ, inner, hP, hl⟩ := hs
  exact ⟨p, hp, σ, inner, hPQ p hp σ hP, hl⟩

/-- What holds with some names added is seen from a new scope that binds them. -/
theorem Sees.push {names : Finset Text} (hs : g.Sees h s fun root σ => P root (names :: σ))
    (hnext : g.scopes ≤ h.next) {f : Frame} (hparent : f.parent = some s)
    (hnames : f.names = names) : g.Sees ⟨h.frames.push f⟩ h.next P := by
  obtain ⟨p, hp, σ, inner, hP, hl⟩ := hs
  have hnew : (Heap.mk (h.frames.push f)).frames[h.next]? = some f := Array.getElem?_push_size
  have hgrown := hl.grows (h.grows_push f)
  refine ⟨p, hp, names :: σ, h.next :: inner, hP, .inner hnew hparent hgrown.outward, ?_, ?_, ?_⟩
  · exact List.pairwise_cons.2 ⟨hl.outward.lt_next, hl.sorted⟩
  · exact List.forall_mem_cons.2 ⟨hnext, hl.own⟩
  · rw [List.map_cons, Heap.nameSet_eq hnew, hnames, hgrown.names]

/-- A name of the static scope is found in the scope that stands for its nearest binder. -/
theorem Lays.lookup (hl : g.Lays h s σ inner) {name : Text} {i : Nat}
    (hi : σ.nearest name = some i) :
    ∃ t f v, inner[i]? = some t ∧ h.lookup s name = some t ∧ h.frames[t]? = some f ∧
      f.get? name = some v := by
  have hidx : inner.findIdx? (fun t => name ∈ h.nameSet t) = some i := by
    rw [← hi, Scoping.nearest, ← hl.names, List.findIdx?_map]
    rfl
  obtain ⟨hlt, hname, -⟩ := List.findIdx?_eq_some_iff_getElem.1 hidx
  obtain ⟨f, hf, hbound⟩ := Heap.mem_nameSet.1 (of_decide_eq_true hname)
  obtain ⟨v, hv⟩ := Frame.exists_get? hbound
  refine ⟨inner[i], f, v, List.getElem?_eq_getElem hlt, ?_, hf, hv⟩
  rw [hl.outward.lookup hl.sorted, List.find?_append, List.find?_eq_bind_findIdx?_getElem?, hidx,
    Option.bind_some, List.getElem?_eq_getElem hlt, Option.some_or]

theorem Sees.more (hs : g.Sees h s P) (p : Program) :
    Sees { g with programs := p :: g.programs } h s P := by
  obtain ⟨q, hq, σ, inner, hP, hl⟩ := hs
  exact ⟨q, List.mem_cons_of_mem p hq, σ, inner, hP, hl.outward, hl.sorted, hl.own, hl.names⟩

end Ground

theorem Value.Fits.grows {v : Value} (hv : v.Fits g h) (hh : h.Grows h') : v.Fits g h' := by
  cases v with
  | closure c => exact (show c.Fits g h from hv).grows hh
  | builtin id name action => exact hv
  | _ => trivial

theorem Value.Fits.more {v : Value} (hv : v.Fits g h) (p : Program) :
    v.Fits { g with programs := p :: g.programs } h := by
  cases v with
  | closure c => exact (show c.Fits g h from hv).more p
  | builtin id name action => exact hv
  | _ => trivial

theorem Value.IsData.fits {v : Value} (hv : v.IsData) : v.Fits g h := by
  cases v with
  | closure | builtin => exact hv.elim
  | _ => trivial

theorem Continuation.fits_grows (hh : h.Grows h') :
    (k : Continuation) → k.Fits g h → k.Fits g h'
  | .final _, _ => trivial
  | .assign _ _ _ k, ⟨hname, hk⟩ => ⟨hname.grows hh, fits_grows hh k hk⟩
  | .left _ _ _ _ k, ⟨hnode, hk⟩ => ⟨hnode.grows hh, fits_grows hh k hk⟩
  | .right _ _ _ k, ⟨hv, hk⟩ => ⟨hv.grows hh, fits_grows hh k hk⟩
  | .branch _ _ _ k, ⟨htrue, hfalse, hk⟩ =>
    ⟨fun hp => (htrue hp).grows hh, fun hp => (hfalse hp).grows hh, fits_grows hh k hk⟩
  | .sequence _ _ k, ⟨hrest, hk⟩ => ⟨fun e he => (hrest e he).grows hh, fits_grows hh k hk⟩
  | .callee _ _ _ k, ⟨hargs, hk⟩ => ⟨fun e he => (hargs e he).grows hh, fits_grows hh k hk⟩
  | .argument _ _ _ _ _ _ k, ⟨hrest, hf, hbuffer, hk⟩ =>
    ⟨fun e he => (hrest e he).grows hh, hf.grows hh, hbuffer, fits_grows hh k hk⟩
  | .bind _ _ _ _ k, ⟨hlet, hk⟩ => ⟨hlet.grows hh, fits_grows hh k hk⟩
  | .applied _, hk | .again _ _, hk | .hosted _, hk => hk

theorem Continuation.Fits.grows {k : Continuation} (hk : k.Fits g h) (hh : h.Grows h') :
    k.Fits g h' :=
  k.fits_grows hh hk

/-! ## Scopes -/

namespace Heap

/-- A new scope whose values fit. -/
theorem Fits.push (hh : h.Fits g) {f : Frame}
    (hf : ∀ b ∈ f.bindings, b.2.Fits g ⟨h.frames.push f⟩) : Fits g ⟨h.frames.push f⟩ := by
  have hgrows := h.grows_push f
  obtain ⟨r, hr, hroot⟩ := hh.root
  obtain ⟨r', hr', hparent, -⟩ := hgrows _ r hr
  refine ⟨⟨r', hr', hparent.trans hroot⟩, hh.globals, ?_, fun s f' hs hf' => ?_⟩
  · exact Nat.le_trans hh.next hgrows.next_le
  · rw [Array.getElem?_push] at hf'
    split_ifs at hf'
    · cases hf'
      exact hf
    · exact fun b hb => (hh.values s f' hs hf' b hb).grows hgrows

/-- An assignment of a value that fits. -/
theorem Fits.assign (hh : h.Fits g) {name : Text} {t : ScopeId} (ht : h.target? s name = some t)
    {v : Value} (hv : v.Fits g h) : (h.define t name v).Fits g := by
  have hgrows := grows_assign v ht
  obtain ⟨r, hr, hroot⟩ := hh.root
  obtain ⟨r', hr', hparent, -⟩ := hgrows _ r hr
  refine ⟨⟨r', hr', hparent.trans hroot⟩, hh.globals, ?_, fun u f hu hf b hb => ?_⟩
  · exact Nat.le_trans hh.next hgrows.next_le
  · rw [define, Array.getElem?_modify] at hf
    split_ifs at hf
    · obtain ⟨f', hf', rfl⟩ := Option.map_eq_some_iff.1 hf
      rcases mem_put hb with hb | hb
      · exact (hh.values u f' hu hf' b hb).grows hgrows
      · exact hb ▸ hv.grows hgrows
    · exact (hh.values u f hu hf b hb).grows hgrows

/-- What a name stands for, where it is seen from a scope of the session. -/
theorem Fits.get? (hh : h.Fits g) {P : Node → Scoping → Prop} (hs : g.Sees h s P) {name : Text}
    {v : Value} (hv : h.get? s name = some v) : v.Fits g h := by
  obtain ⟨p, hp, σ, inner, -, hl⟩ := hs
  simp only [Heap.get?, hl.outward.lookup hl.sorted] at hv
  split at hv
  · cases hv
  · rename_i t ht
    obtain ⟨f, hf, hget⟩ := Option.bind_eq_some_iff.1 hv
    obtain ⟨b, hfind, rfl⟩ := Option.map_eq_some_iff.1 hget
    have hown : t = g.globals ∨ g.scopes ≤ t := by
      rcases List.mem_append.1 (List.mem_of_find?_eq_some ht) with hmem | hmem
      · exact .inr (hl.own t hmem)
      · exact .inl (List.mem_singleton.1 hmem)
    exact hh.values t f hown hf b (List.mem_of_find?_eq_some hfind)

end Heap

namespace World

variable {w : World}

/-- A scope that binds a value that fits. -/
theorem fits_bindIn (hw : w.heap.Fits g) (s : ScopeId) (name : Text) {v : Value}
    (hv : v.Fits g (w.bindIn s name v).1.heap) : (w.bindIn s name v).1.heap.Fits g := by
  rw [heap_bindIn] at hv ⊢
  exact hw.push (List.forall_mem_singleton.2 hv)

theorem grows_bindIn (w : World) (s : ScopeId) (name : Text) (v : Value) :
    w.heap.Grows (w.bindIn s name v).1.heap := by
  rw [heap_bindIn]
  exact w.heap.grows_push _

/-- What holds with a name added is seen from the scope that binds it. -/
theorem sees_bindIn (hw : w.heap.Fits g) {P : Node → Scoping → Prop} {name : Text}
    (hs : g.Sees w.heap s fun root σ => P root ({name} :: σ)) (v : Value) :
    g.Sees (w.bindIn s name v).1.heap (w.bindIn s name v).2 P := by
  rw [heap_bindIn]
  exact hs.push hw.next rfl (by simp [Frame.names])

theorem fits_makeClosure (hw : w.heap.Fits g) {name : Option Text} {params : List Text}
    {body : Node} (hbody : g.Sees w.heap s fun root σ =>
      root.Occurs (params.toFinset :: (name.toList.map fun n => {n}) ++ σ) body) :
    w.heap.Grows (w.makeClosure s name params body).1.heap ∧
      (w.makeClosure s name params body).1.heap.Fits g ∧
      (w.makeClosure s name params body).2.Fits g (w.makeClosure s name params body).1.heap := by
  cases name with
  | none => exact ⟨.refl _, hw, hbody⟩
  | some n =>
    -- the closure fits in the scope that is made for its name
    let v := Value.closure ⟨w.fresh, some n, params, body, w.heap.next⟩
    have hfits := sees_bindIn (w := { w with fresh := w.fresh + 1 }) hw
      (P := fun root σ => root.Occurs (params.toFinset :: σ) body) (s := s) hbody v
    exact ⟨grows_bindIn { w with fresh := w.fresh + 1 } s n v, fits_bindIn hw s n hfits, hfits⟩

theorem fits_enter (hw : w.heap.Fits g) {c : Closure} (hc : c.Fits g w.heap) {args : List Value}
    (hargs : ∀ v ∈ args, v.Fits g w.heap) :
    w.heap.Grows (w.enter c args).1.heap ∧ (w.enter c args).1.heap.Fits g ∧
      c.body.Fits g (w.enter c args).1.heap (w.enter c args).2 := by
  obtain ⟨f, hf, hparent, hnames, hbindings⟩ := heap_enter w c args
  rw [hf]
  have hbody : g.Sees w.heap c.scope fun root σ => root.Occurs (c.params.toFinset :: σ) c.body := hc
  refine ⟨w.heap.grows_push f, hw.push fun b hb => ?_,
    hbody.push (P := fun root σ => root.Occurs σ c.body) hw.next hparent hnames⟩
  rcases hbindings b hb with hb | hb
  · exact (hargs b.2 hb).grows (w.heap.grows_push f)
  · rw [hb]
    trivial

end World

/-! ## Steps -/

/-- The programs have been parsed. -/
def Ground.Parsed (g : Ground) : Prop := ∀ p ∈ g.programs, ∃ source, Program.parse source = .ok p

theorem Node.Fits.whole (hg : g.Parsed) {e : Node} (he : e.Fits g h s) :
    ∃ places, e.Whole places := by
  obtain ⟨p, hp, σ, -, hoccurs, -⟩ := he
  obtain ⟨source, hparse⟩ := hg p hp
  obtain ⟨ts, -, hwhole⟩ := Program.whole_of_parse hparse
  exact ⟨_, hwhole.occurs hoccurs⟩

theorem Node.Fits.child {e c : Node} (he : e.Fits g h s) (hc : e.Child [] c)
    (hpresent : c.isPresent = true) : c.Fits g h s :=
  he.imp fun _ _ _ hoccurs => hoccurs.inside hc hpresent

/-- A step makes the heap of its store grow. It goes on, ends the run, or fails, and what it leaves
fits. -/
def Effect.Fits (g : Ground) (h : Heap) : Effect → Prop
  | .advance st _ control =>
    h.Grows st.world.heap ∧ st.Fits g ∧ control.Fits g st.world.heap
  | .deliver st _ _ | .fail st _ => h.Grows st.world.heap ∧ st.Fits g
  | .idle _ | .nest _ _ _ _ => False

namespace Store

variable {st : Store}

theorem Fits.withHeap (hs : st.Fits g) {w : World} (hgrows : st.world.heap.Grows w.heap)
    (hw : w.heap.Fits g) : Fits g { st with world := w } :=
  ⟨hw, hs.size, fun i vs hi hvs v hv => (hs.buffers i vs hi hvs v hv).grows hgrows⟩

theorem fits_advance (hs : st.Fits g) (m : Nat) {control : Control}
    (hc : control.Fits g st.world.heap) : (Effect.advance st m control).Fits g st.world.heap :=
  ⟨.refl _, hs, hc⟩

theorem fits_fail (hs : st.Fits g) (e : Error) : (Effect.fail st e).Fits g st.world.heap :=
  ⟨.refl _, hs⟩

theorem fits_evaluate (hg : g.Parsed) (hs : st.Fits g) (m : Nat) {scope : ScopeId}
    {k : Continuation} (hk : k.Fits g st.world.heap) {node : Node}
    (hnode : node.Fits g st.world.heap scope) :
    (st.evaluate m scope k node).Fits g st.world.heap := by
  obtain ⟨places, hwhole⟩ := hnode.whole hg
  cases hwhole with
  | number | string | bool => exact fits_advance hs m ⟨hk, trivial⟩
  | @identifier pos name _ =>
    simp only [evaluate]
    split
    · rename_i v hv
      exact fits_advance hs m ⟨hk, hs.heap.get? hnode hv⟩
    · exact fits_fail hs _
  | assign _ htarget hvalue =>
    cases htarget with
    | identifier =>
      exact fits_advance hs m
        ⟨hnode.child .value hvalue.isPresent, hnode.child .target rfl, hk⟩
    | _ => exact fits_fail hs _
  | binary _ _ hleft hright =>
    exact fits_advance hs m
      ⟨hnode.child .left hleft.isPresent, hnode.child .right hright.isPresent, hk⟩
  | branch hcondition _ _ =>
    exact fits_advance hs m ⟨hnode.child .condition hcondition.isPresent,
      hnode.child .whenTrue, hnode.child .whenFalse, hk⟩
  | @lambda _ name params body hbody =>
    obtain ⟨hgrows, hw, hv⟩ := World.fits_makeClosure hs.heap
      (hnode.imp fun _ _ _ hoccurs => hoccurs.inside .lambdaBody hbody.isPresent)
    exact ⟨hgrows, hs.withHeap hgrows hw, hk.grows hgrows, hv⟩
  | program hbody =>
    refine fits_advance hs m ⟨fun e he => ?_, trivial, hk⟩
    exact hnode.child (.statement he) (hbody e he).isPresent
  | call _ hcallee hargs =>
    refine fits_advance hs m ⟨hnode.child .callee hcallee.isPresent, fun e he => ?_, hk⟩
    exact hnode.child (.argument he) (hargs e he).isPresent
  | binding _ hbody =>
    refine fits_advance hs m ⟨hnode.imp fun _ _ σ hoccurs => ?_, hk⟩
    exact hoccurs.bindings hbody.isPresent

theorem fits_addBuffer (hs : st.Fits g) : st.addBuffer.1.Fits g := by
  refine ⟨hs.heap, ?_, fun i vs hi hvs u hu => ?_⟩
  · simp only [addBuffer, Array.size_push]
    exact Nat.le_succ_of_le hs.size
  · exact hs.buffers i vs hi (mem_addBuffer hvs hu) u hu

theorem fits_fillBuffer (hs : st.Fits g) (buffer filled : Nat) {v : Value}
    (hv : v.Fits g st.world.heap) : (st.fillBuffer buffer filled v).Fits g := by
  refine ⟨hs.heap, ?_, fun i vs hi hvs u hu => ?_⟩
  · simpa [fillBuffer] using hs.size
  · rcases mem_fillBuffer hvs hu with rfl | ⟨us, hus, hu⟩
    · exact hv
    · exact hs.buffers i us hi hus u hu

theorem fits_buffered (hs : st.Fits g) {buffer : Nat} (hb : g.buffers ≤ buffer) (filled : Nat) :
    ∀ v ∈ st.buffered buffer filled, v.Fits g st.world.heap := by
  intro v hv
  obtain ⟨vs, hvs, hv⟩ := mem_buffered hv
  exact hs.buffers buffer vs hb hvs v hv

theorem fits_bindNext (hs : st.Fits g) (m : Nat) {scope : ScopeId} {name : Text} {v : Value}
    (hv : v.Fits g st.world.heap) {rest : List (Text × Node)} {body : Node}
    (hlet : Node.FitsLet g st.world.heap scope [{name}] rest body) {k : Continuation}
    (hk : k.Fits g st.world.heap) :
    (st.bindNext m scope name v rest body k).Fits g st.world.heap := by
  have hgrows := st.world.grows_bindIn scope name v
  have hw := World.fits_bindIn hs.heap scope name (hv.grows hgrows)
  have hinside := World.sees_bindIn hs.heap (P := fun root σ => root.OccursLet body σ rest) hlet v
  exact ⟨hgrows, hs.withHeap hgrows hw, hinside, hk.grows hgrows⟩

theorem fits_resume (hs : st.Fits g) (m : Nat) {v : Value} (hv : v.Fits g st.world.heap)
    {k : Continuation} (hk : k.Fits g st.world.heap) :
    (st.resume m v k).Fits g st.world.heap := by
  cases k with
  | final run => exact ⟨.refl _, hs⟩
  | assign pos name scope k =>
    simp only [resume]
    split
    · rename_i t ht
      have hgrows := Heap.grows_assign v ht
      have hw := hs.heap.assign ht hv
      exact ⟨hgrows, hs.withHeap (w := st.world.define t name v) hgrows hw, hk.2.grows hgrows,
        hv.grows hgrows⟩
    · exact fits_fail hs _
  | left pos o node scope k => exact fits_advance hs m ⟨hk.1, hv, hk.2⟩
  | right pos o a k =>
    simp only [resume]
    split
    · rename_i result happly
      refine fits_advance hs m ⟨hk.2, ?_⟩
      rcases Operator.apply_ok happly with hdata | rfl | rfl
      · exact hdata.fits
      · exact hk.1
      · exact hv
    · exact fits_fail hs _
  | branch whenTrue whenFalse scope k =>
    obtain ⟨htrue, hfalse, hk⟩ := hk
    simp only [resume]
    split_ifs with _ hpresent hpresent
    · exact fits_advance hs m ⟨htrue hpresent, hk⟩
    · exact fits_advance hs m ⟨hk, hv⟩
    · exact fits_advance hs m ⟨hfalse hpresent, hk⟩
    · exact fits_advance hs m ⟨hk, trivial⟩
  | sequence rest scope k => exact fits_advance hs m ⟨hk.1, hv, hk.2⟩
  | callee pos args scope k => exact ⟨.refl _, fits_addBuffer hs, hk.1, hv, hs.size, hk.2⟩
  | argument pos rest scope f buffer filled k =>
    exact ⟨.refl _, fits_fillBuffer hs buffer filled hv, hk⟩
  | bind name rest body scope k => exact fits_bindNext hs m hv hk.1 hk.2
  | applied | again | hosted => exact hk.elim

theorem fits_writeFor (hs : st.Fits g) (m : Nat) (primitive : String) (t : Text)
    {k : Continuation} (hk : k.Fits g st.world.heap) :
    (st.writeFor m primitive t k).Fits g st.world.heap := by
  simp only [writeFor]
  split
  · exact ⟨.refl _, hs.withHeap (.refl _) hs.heap, hk, trivial⟩
  · exact fits_fail hs _

theorem fits_perform (hs : st.Fits g) (m : Nat) (args : List Value) {k : Continuation}
    (hk : k.Fits g st.world.heap) {action : Action} (haction : action.Primitive) :
    (st.perform m args k action).Fits g st.world.heap := by
  cases action with
  | print | println => exact fits_writeFor hs m _ _ hk
  | _ => exact haction.elim

end Store

theorem Value.fits_call? {f : Value} {args : List Value} {k : Continuation} {control : Control}
    (hf : f.Fits g h) (hargs : ∀ v ∈ args, v.Fits g h) (hk : k.Fits g h)
    (hcall : f.call? args k = some control) : control.Fits g h := by
  cases f with
  | closure c =>
    cases hcall
    exact ⟨hf, hargs, hk⟩
  | builtin id name action =>
    cases hcall
    exact ⟨hf, hk⟩
  | _ => cases hcall

/-- What a step of a session does. -/
theorem Control.fits_execute (hg : g.Parsed) {st : Store} (hs : st.Fits g) (m : Nat) {c : Control}
    (hc : c.Fits g st.world.heap) : (c.execute st m).Fits g st.world.heap := by
  cases c with
  | evaluate node scope k => exact Store.fits_evaluate hg hs m hc.2 hc.1
  | sequence rest scope last k =>
    obtain ⟨hrest, hlast, hk⟩ := hc
    cases rest with
    | nil => exact Store.fits_advance hs m ⟨hk, hlast⟩
    | cons node rest =>
      obtain ⟨hnode, hrest⟩ := List.forall_mem_cons.1 hrest
      exact Store.fits_advance hs m ⟨hnode, hrest, hk⟩
  | arguments pos rest scope f buffer filled k =>
    obtain ⟨hrest, hf, hbuffer, hk⟩ := hc
    cases rest with
    | nil =>
      simp only [Control.execute]
      split
      · rename_i control hcall
        have hargs := Store.fits_buffered hs hbuffer filled
        exact Store.fits_advance hs m (Value.fits_call? hf hargs hk hcall)
      · exact Store.fits_fail hs _
    | cons node rest =>
      obtain ⟨hnode, hrest⟩ := List.forall_mem_cons.1 hrest
      exact Store.fits_advance hs m ⟨hnode, hrest, hf, hbuffer, hk⟩
  | bindings rest body scope k =>
    obtain ⟨hlet, hk⟩ := hc
    cases rest with
    | nil => exact Store.fits_advance hs m ⟨hlet, hk⟩
    | cons b rest =>
      obtain ⟨x, d⟩ := b
      have hrest : Node.FitsLet g st.world.heap scope [{x}] rest body :=
        hlet.imp fun _ _ _ hoccurs => hoccurs.2
      simp only [Control.execute]
      split_ifs with hpresent
      · have hd : d.Fits g st.world.heap scope :=
          hlet.imp fun _ _ _ hoccurs => hoccurs.1 hpresent
        exact Store.fits_advance hs m ⟨hd, hrest, hk⟩
      · exact Store.fits_bindNext hs m (v := .bool false) trivial hrest hk
  | enter c args k =>
    obtain ⟨hc, hargs, hk⟩ := hc
    obtain ⟨hgrows, hw, hbody⟩ := World.fits_enter hs.heap hc hargs
    exact ⟨hgrows, hs.withHeap hgrows hw, hbody, hk.grows hgrows⟩
  | resume k v => exact Store.fits_resume hs m hc.2 hc.1
  | perform action args k => exact Store.fits_perform hs m args hc.2 hc.1
  | report => exact hc.elim

/-! ## Runs -/

/-- A run goes on or ends, and what there is then fits in a heap that has grown. -/
def Progress.Fits (g : Ground) (h : Heap) : Progress → Prop
  | .running s => h.Grows s.store.world.heap ∧ s.Fits g
  | .finished st _ => h.Grows st.world.heap ∧ st.Fits g

theorem Store.Fits.modifyMachine {st : Store} (hs : st.Fits g) (m : Nat) (f : Machine → Machine) :
    (st.modifyMachine m f).Fits g :=
  ⟨hs.heap, hs.size, hs.buffers⟩

theorem Store.Fits.endRun {st : Store} (hs : st.Fits g) (run : Run) (failure : Option Error) :
    (st.endRun run failure).Fits g := by
  obtain ⟨hheap, hbuffers⟩ := st.heap_endRun run failure
  exact ⟨hheap ▸ hs.heap, hbuffers ▸ hs.size, by rw [hheap, hbuffers]; exact hs.buffers⟩

namespace State

variable {s : State}

theorem fits_fail {st : Store} (hs : st.Fits g) (hh : h.Grows st.world.heap) (run : Run)
    (e : Error) : (fail run [] st e).Fits g h := by
  refine ⟨?_, hs.endRun run (some e)⟩
  rw [(st.heap_endRun run (some e)).1]
  exact hh

theorem fits_deliver {st : Store} (hs : st.Fits g) (hh : h.Grows st.world.heap) (run : Run)
    (id : Nat) (v : Value) : (deliver run [] st id v).Fits g h := by
  have hsucceed : ∀ v, (succeed run [] st v).Fits g h := by
    intro v
    refine ⟨?_, hs.endRun run none⟩
    rw [(st.heap_endRun run none).1]
    exact hh
  unfold deliver conclude
  split_ifs
  · exact hsucceed v
  · split
    · exact hsucceed _
    · exact fits_fail hs hh run _

theorem fits_execute (hg : g.Parsed) (hs : s.Fits g) : s.execute.Fits g s.store.world.heap := by
  have heffect := Control.fits_execute hg hs.store s.machine hs.control
  obtain ⟨st, m, control, run, waiting⟩ := s
  obtain rfl : waiting = [] := hs.waiting
  simp only [execute]
  cases he : control.execute st m with
  | advance st' m' control' =>
    rw [he] at heffect
    exact ⟨heffect.1, heffect.2.1, heffect.2.2, rfl⟩
  | deliver st' id v =>
    rw [he] at heffect
    exact fits_deliver heffect.2 heffect.1 run id v
  | fail st' e =>
    rw [he] at heffect
    exact fits_fail heffect.2 heffect.1 run e
  | idle | nest =>
    rw [he] at heffect
    exact heffect.elim

theorem fits_charge (hs : s.Fits g) : s.charge.Fits g :=
  ⟨hs.store.modifyMachine _ _, hs.control, hs.waiting⟩

theorem fits_bounce (hs : s.Fits g) (target : Target) :
    (s.bounce target).Fits g s.store.world.heap := by
  obtain ⟨st, m, control, run, waiting⟩ := s
  obtain rfl : waiting = [] := hs.waiting
  have hcounted := hs.store.modifyMachine run.machine fun m => { m with bounces := m.bounces + 1 }
  simp only [bounce]
  split
  · exact fits_fail hcounted (.refl _) run _
  · split_ifs
    · exact fits_fail hcounted (.refl _) run _
    · exact ⟨.refl _, hcounted.modifyMachine _ _, hs.control, rfl⟩

theorem fits_step (hg : g.Parsed) (hs : s.Fits g) : s.step.Fits g s.store.world.heap := by
  unfold step
  split
  · exact fits_execute hg hs
  · dsimp only
    split_ifs
    · exact fits_bounce (fits_charge hs) _
    · exact fits_execute hg (fits_charge hs)

end State

end Mycel
