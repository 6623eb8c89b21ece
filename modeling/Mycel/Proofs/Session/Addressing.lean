import Mathlib.Logic.Relation
import Mycel.Proofs.Machine.Fitting
import Mycel.Proofs.Session.Evaluation

/-!
# Lexical addressing

A session evaluates programs one after another. `Moment` is where it stands: between two
evaluations, or in the middle of one. From moment to moment (`Moment.Next`) an evaluation starts,
takes a step or ends, and between evaluations the host may change everything but the scopes and
their values.

At every moment a node is evaluated in scopes that bind what its static scope says, so a name is
read and assigned where its nearest binder has put it (`Session.lexical_addressing`).
-/

namespace Mycel

/-- Where a session stands. -/
structure Moment where
  /-- The session as the latest evaluation before has left it. -/
  session : Session
  /-- The programs whose evaluation has started, the newest first. -/
  programs : List Program
  /-- The evaluation that is under way. -/
  state : Option State

namespace Moment

def heap (x : Moment) : Heap :=
  match x.state with
  | none => x.session.store.world.heap
  | some s => s.store.world.heap

/-- Where a session stands by what has become of an evaluation. -/
def after (s : Session) (ps : List Program) : Progress → Moment
  | .running x => ⟨s, ps, some x⟩
  | .finished st _ => ⟨{ s with store := st }, ps, none⟩

/-- What can happen next. -/
inductive Next : Moment → Moment → Prop
  | start {s : Session} {ps : List Program} {source : Text} {p : Program} (o : Override)
      (hparse : Program.parse source = .ok p) : Next ⟨s, ps, none⟩ ⟨s, p :: ps, some (s.start o p)⟩
  | step {s : Session} {ps : List Program} {x : State} : Next ⟨s, ps, some x⟩ (after s ps x.step)
  | host {s t : Session} {ps : List Program} (hglobals : t.globals = s.globals)
      (hheap : t.store.world.heap = s.store.world.heap)
      (hbuffers : t.store.buffers = s.store.buffers) : Next ⟨s, ps, none⟩ ⟨t, ps, none⟩

/-- What can happen sooner or later. -/
abbrev Leads : Moment → Moment → Prop := Relation.ReflTransGen Next

theorem leads_iterate (s : Session) (ps : List Program) (n : Nat) (x : State) :
    Leads ⟨s, ps, some x⟩ (after s ps (State.iterate State.step n x)) := by
  induction n generalizing x with
  | zero => exact .refl
  | succ n ih =>
    have hstep : Next ⟨s, ps, some x⟩ (after s ps x.step) := .step
    cases hx : x.step with
    | running y =>
      rw [hx] at hstep
      rw [State.iterate_succ_running hx]
      exact .head hstep (ih y)
    | finished st result =>
      rw [hx] at hstep
      rw [State.iterate_succ_finished hx]
      exact .single hstep

/-- An evaluation that ends leads to the session that it leaves. -/
theorem leads_eval {s : Session} (ps : List Program) {o : Override} {source : Text} {p : Program}
    (hparse : Program.parse source = .ok p) {st : Store} {result : Except Error Value}
    (hrun : (s.start o p).runWithin horizon = some (st, result)) :
    Leads ⟨s, ps, none⟩ ⟨(s.eval o source).1, p :: ps, none⟩ := by
  have hleads := leads_iterate s (p :: ps) horizon (s.start o p)
  rw [State.runWithin_eq_some_iff.1 hrun] at hleads
  rw [Session.eval_of_runWithin hparse hrun]
  exact .head (.start o hparse) hleads

end Moment

/-! ## The invariant -/

/-- A value that is not a callable, or a builtin that writes. -/
def Value.Plain : Value → Prop
  | .closure _ => False
  | .builtin _ _ action => action.Primitive
  | _ => True

namespace Session

/-- The global scope is a root, and binds no callables but the builtins that write. -/
def Plain (s : Session) : Prop :=
  ∃ f, s.store.world.heap.frames[s.globals]? = some f ∧ f.parent = none ∧
    ∀ b ∈ f.bindings, b.2.Plain

/-- What a session stands on after some programs. -/
def ground (s : Session) (ps : List Program) : Ground :=
  ⟨ps, s.globals, s.store.world.heap.next, s.store.buffers.size⟩

theorem Plain.fits {s : Session} (hs : s.Plain) : s.store.Fits (s.ground []) := by
  obtain ⟨f, hf, hparent, hvalues⟩ := hs
  have hlt : s.globals < s.store.world.heap.next := (Array.getElem?_eq_some_iff.1 hf).1
  refine ⟨⟨⟨f, hf, hparent⟩, hlt, Nat.le_refl _, fun t f' ht hf' b hb => ?_⟩, Nat.le_refl _,
    fun i vs hi hvs => ?_⟩
  · rcases ht with rfl | ht
    · cases hf.symm.trans hf'
      have hb := hvalues b hb
      cases hv : b.2 with
      | closure c =>
        rw [hv] at hb
        exact hb.elim
      | builtin id name action =>
        rw [hv] at hb
        exact hb
      | _ => trivial
    · exact absurd hf' (by simp [Array.getElem?_eq_none ht])
  · exact absurd hvs (by simp [Array.getElem?_eq_none hi])

theorem plain_new (w : World) : (Session.new w).Plain := by
  refine ⟨⟨none, [(bytes "print", .builtin w.fresh (bytes "print") .print),
    (bytes "println", .builtin (w.fresh + 1) (bytes "println") .println)]⟩, ?_, rfl, ?_⟩
  · have hheap : (Session.new w).store.world.heap = ⟨w.heap.frames.push _⟩ :=
      (congrArg (Heap.define · _ _ _) (w.heap.define_push ⟨none, []⟩ _ _)).trans
        (w.heap.define_push _ _ _)
    rw [hheap]
    exact Array.getElem?_push_size
  · simp [Value.Plain, Action.Primitive]

end Session

/-- The programs are parsed ones, and what there is fits. -/
structure Moment.Fits (s : Session) (x : Moment) : Prop where
  parsed : (s.ground x.programs).Parsed
  globals : x.session.globals = s.globals
  resting : x.state = none → x.session.store.Fits (s.ground x.programs)
  busy : ∀ y, x.state = some y → y.Fits (s.ground x.programs)

namespace Moment

variable {s : Session} {x y : Moment}

theorem fits_after {t : Session} {ps : List Program} (hparsed : (s.ground ps).Parsed)
    (hglobals : t.globals = s.globals) {h : Heap} {q : Progress} (hq : q.Fits (s.ground ps) h) :
    h.Grows (after t ps q).heap ∧ (after t ps q).Fits s := by
  cases q with
  | running y =>
    refine ⟨hq.1, hparsed, hglobals, nofun, fun z hz => ?_⟩
    cases hz
    exact hq.2
  | finished st result =>
    exact ⟨hq.1, hparsed, hglobals, fun _ => hq.2, fun z hz => nomatch hz⟩

theorem fits_start {t : Session} {ps : List Program} (hx : Fits s ⟨t, ps, none⟩) (o : Override)
    {source : Text} {p : Program} (hparse : Program.parse source = .ok p) :
    Fits s ⟨t, p :: ps, some (t.start o p)⟩ := by
  have hstore : t.store.Fits (s.ground (p :: ps)) := by
    have hs := hx.resting rfl
    refine ⟨⟨hs.heap.root, hs.heap.globals, hs.heap.next, fun u f hu hf b hb => ?_⟩, hs.size,
      fun i vs hi hvs v hv => ?_⟩
    · exact (hs.heap.values u f hu hf b hb).more p
    · exact (hs.buffers i vs hi hvs v hv).more p
  obtain ⟨f, hf, hroot⟩ := hstore.heap.root
  have hlays : (s.ground (p :: ps)).Lays t.store.world.heap s.globals [] [] :=
    ⟨.root hf hroot, List.pairwise_singleton _ _, List.forall_mem_nil _, rfl⟩
  refine ⟨?_, hx.globals, nofun, fun y hy => ?_⟩
  · exact List.forall_mem_cons.2 ⟨⟨source, hparse⟩, hx.parsed⟩
  · cases hy
    refine ⟨⟨hstore.heap, hstore.size, hstore.buffers⟩, ⟨?_, trivial⟩, rfl⟩
    rw [hx.globals]
    exact ⟨p, List.mem_cons_self, [], [], .here, hlays⟩

/-- From one moment to the next the heap grows, and what there is still fits. -/
theorem fits_next (hx : x.Fits s) (hxy : Next x y) : x.heap.Grows y.heap ∧ y.Fits s := by
  cases hxy with
  | start o hparse => exact ⟨.refl _, fits_start hx o hparse⟩
  | @step t ps z =>
    exact fits_after hx.parsed hx.globals (State.fits_step hx.parsed (hx.busy z rfl))
  | @host t u ps hglobals hheap hbuffers =>
    have hs := hx.resting rfl
    refine ⟨?_, hx.parsed, hglobals.trans hx.globals, fun _ => ⟨?_, ?_, ?_⟩, fun z hz => nomatch hz⟩
    · show Heap.Grows t.store.world.heap u.store.world.heap
      rw [hheap]
      exact .refl _
    · rw [hheap]
      exact hs.heap
    · rw [hbuffers]
      exact hs.size
    · rw [hbuffers, hheap]
      exact hs.buffers

theorem fits_leads (hx : x.Fits s) (hxy : x.Leads y) : x.heap.Grows y.heap ∧ y.Fits s := by
  induction hxy with
  | refl => exact ⟨.refl _, hx⟩
  | tail _ hnext ih =>
    obtain ⟨hgrows, hy⟩ := ih
    obtain ⟨hgrows', hz⟩ := fits_next hy hnext
    exact ⟨hgrows.trans hgrows', hz⟩

end Moment

/-! ## Names -/

/-- Unless it bounces, the next step leaves a world and gives a value to a continuation. It never
fails for a name that is not bound. -/
structure State.Proceeds (s : State) (w : World) (k : Continuation) (v : Value) : Prop where
  step : s.mustBounce = false →
    ∃ s', s.step = .running s' ∧ s'.store.world = w ∧ s'.control = .resume k v
  bound : ∀ st e, s.step = .finished st (.error e) → e.code? ≠ some .undefined

theorem State.code_of_bounce {s : State} (hwaiting : s.waiting = []) {target : Target} {st : Store}
    {e : Error} (h : s.bounce target = .finished st (.error e)) :
    e.code? = some .canceled ∨ e.code? = some .bounceLimit := by
  obtain ⟨store, machine, control, run, waiting⟩ := s
  obtain rfl : waiting = [] := hwaiting
  simp only [bounce] at h
  split at h
  · cases h
    exact .inl rfl
  · split at h
    · cases h
      exact .inr rfl
    · cases h

theorem State.proceeds {s : State} (hwaiting : s.waiting = []) (hguarded : s.isGuarded = true)
    {st : Store} {m : Nat} {w : World} {k : Continuation} {v : Value}
    (h : s.control.execute s.charge.store s.machine = .advance st m (.resume k v))
    (hw : st.world = w) : s.Proceeds w k v := by
  have hrunning : s.charge.execute = .running ⟨st, m, .resume k v, s.run, s.waiting⟩ := by
    have hexecute : s.charge.execute =
        after s.run s.machine s.waiting (s.control.execute s.charge.store s.machine) := rfl
    rw [hexecute, h]
    rfl
  constructor
  · intro hbounce
    refine ⟨⟨st, m, .resume k v, s.run, s.waiting⟩, ?_, hw, rfl⟩
    rw [step_eq_execute hbounce, pay, if_pos hguarded, hrunning]
  · intro st' e hfinished
    obtain ⟨target, htarget⟩ := Option.isSome_iff_exists.1 hguarded
    simp only [step, htarget] at hfinished
    split_ifs at hfinished
    · rcases code_of_bounce (s := s.charge) hwaiting hfinished with hcode | hcode <;> simp [hcode]
    · rw [hrunning] at hfinished
      cases hfinished

/-- Reading a name that is bound gives its value. -/
theorem State.proceeds_identifier {s : State} (hwaiting : s.waiting = []) {pos : Pos} {name : Text}
    {scope : ScopeId} {k : Continuation}
    (hcontrol : s.control = .evaluate (.identifier pos name) scope k) {v : Value}
    (hget : s.store.world.heap.get? scope name = some v) : s.Proceeds s.store.world k v := by
  have hguarded : s.isGuarded = true := by
    rw [isGuarded, hcontrol]
    rfl
  have hexecute : s.control.execute s.charge.store s.machine =
      .advance s.charge.store s.machine (.resume k v) := by
    have hget : s.charge.store.world.heap.get? scope name = some v := hget
    simp only [hcontrol, Control.execute, Store.evaluate, hget]
  exact proceeds hwaiting hguarded hexecute rfl

/-- Assigning a name that is bound binds it anew in its scope, and gives the value. -/
theorem State.proceeds_assign {s : State} (hwaiting : s.waiting = []) {pos : Pos} {name : Text}
    {scope t : ScopeId} {k : Continuation} {v : Value}
    (hcontrol : s.control = .resume (.assign pos name scope k) v)
    (hlookup : s.store.world.heap.lookup scope name = some t) :
    s.Proceeds (s.store.world.define t name v) k v := by
  have hguarded : s.isGuarded = true := by
    rw [isGuarded, hcontrol]
    rfl
  have hexecute : s.control.execute s.charge.store s.machine =
      .advance { s.charge.store with world := s.store.world.define t name v } s.machine
        (.resume k v) := by
    have htarget : s.charge.store.world.heap.target? scope name = some t := by
      show s.store.world.heap.target? scope name = some t
      simp only [Heap.target?, hlookup]
    simp only [hcontrol, Control.execute, Store.resume, htarget]
    rfl
  exact proceeds hwaiting hguarded hexecute rfl

/-- In one of the programs a node has the static scope `σ`, and no other one. The scopes that are
seen from a scope bind the names of `σ`, one set each, and then comes the global one. -/
def Moment.Addresses (x : Moment) (node : Node) (scope : ScopeId) (σ : Scoping)
    (inner : List ScopeId) : Prop :=
  (∃ p ∈ x.programs, p.toNode.Occurs σ node ∧ ∀ τ, p.toNode.Occurs τ node → τ = σ) ∧
    x.heap.Outward scope (inner ++ [x.session.globals]) ∧ inner.map x.heap.nameSet = σ

theorem Moment.Fits.addresses {s : Session} {x : Moment} (hx : x.Fits s) {y : State}
    (hy : x.state = some y) {node : Node} {scope : ScopeId}
    (hnode : node.Fits (s.ground x.programs) y.store.world.heap scope) :
    ∃ σ inner, x.Addresses node scope σ inner ∧
      (s.ground x.programs).Lays y.store.world.heap scope σ inner := by
  obtain ⟨p, hp, σ, inner, hoccurs, hlays⟩ := hnode
  obtain ⟨source, hparse⟩ := hx.parsed p hp
  have hheap : x.heap = y.store.world.heap := by
    rw [heap, hy]
  refine ⟨σ, inner, ⟨⟨p, hp, hoccurs, fun τ hτ => Program.scoping_unique hparse hτ hoccurs⟩, ?_⟩,
    hlays⟩
  rw [hheap, hx.globals]
  exact ⟨hlays.outward, hlays.names⟩

/-- Lexical addressing. In a session that starts with a global scope without callables but the
builtins that write, a node is evaluated in scopes that bind the names of its static scope, and
around them the global one. Scopes never change but that the global one gets new names. So a name
that its static scope binds is read and assigned in the scope of its nearest binder, and is never
undefined. -/
theorem Session.lexical_addressing {s : Session} (hs : s.Plain) {x y : Moment}
    (hx : Moment.Leads ⟨s, [], none⟩ x) (hxy : x.Leads y) :
    x.heap.Grows y.heap ∧ ∀ z, x.state = some z →
      (∀ node scope k, z.control = .evaluate node scope k → ∃ σ inner,
        x.Addresses node scope σ inner ∧
        ∀ pos name i, node = .identifier pos name → σ.nearest name = some i → ∃ t f v,
          inner[i]? = some t ∧ x.heap.lookup scope name = some t ∧
          x.heap.frames[t]? = some f ∧ f.get? name = some v ∧ z.Proceeds z.store.world k v) ∧
      ∀ pos name scope k v, z.control = .resume (.assign pos name scope k) v → ∃ σ inner,
        x.Addresses (.identifier pos name) scope σ inner ∧
        ∀ i, σ.nearest name = some i → ∃ t,
          inner[i]? = some t ∧ x.heap.lookup scope name = some t ∧
          z.Proceeds (z.store.world.define t name v) k v := by
  have hstart : Moment.Fits s ⟨s, [], none⟩ :=
    ⟨List.forall_mem_nil _, rfl, fun _ => hs.fits, fun z hz => nomatch hz⟩
  obtain ⟨-, hfits⟩ := Moment.fits_leads hstart hx
  refine ⟨(Moment.fits_leads hfits hxy).1, fun z hz => ?_⟩
  have hzfits := hfits.busy z hz
  have hheap : x.heap = z.store.world.heap := by
    rw [Moment.heap, hz]
  constructor
  · intro node scope k hcontrol
    have hnode := hzfits.control
    rw [hcontrol] at hnode
    obtain ⟨σ, inner, haddresses, hlays⟩ := hfits.addresses hz hnode.1
    refine ⟨σ, inner, haddresses, ?_⟩
    rintro pos name i rfl hi
    obtain ⟨t, f, v, ht, hlookup, hf, hv⟩ := hlays.lookup hi
    have hget : z.store.world.heap.get? scope name = some v := by
      simp only [Heap.get?, hlookup, hf, Option.bind_some, hv]
    rw [hheap]
    exact ⟨t, f, v, ht, hlookup, hf, hv, z.proceeds_identifier hzfits.waiting hcontrol hget⟩
  · intro pos name scope k v hcontrol
    have hk := hzfits.control
    rw [hcontrol] at hk
    obtain ⟨σ, inner, haddresses, hlays⟩ := hfits.addresses hz hk.1.1
    refine ⟨σ, inner, haddresses, fun i hi => ?_⟩
    obtain ⟨t, _, _, ht, hlookup, -⟩ := hlays.lookup hi
    rw [hheap]
    exact ⟨t, ht, hlookup, z.proceeds_assign hzfits.waiting hcontrol hlookup⟩

/-- The program of `f = lambda g (x) x`. -/
def bindIdentity : Program :=
  ⟨⟨1, 1⟩, [.assign ⟨1, 1⟩ (.identifier ⟨1, 1⟩ (bytes "f"))
    (.lambda ⟨1, 5⟩ (some (bytes "g")) [bytes "x"] (.identifier ⟨1, 18⟩ (bytes "x")))]⟩

/-- The program of `f(true)`. -/
def callIdentity : Program :=
  ⟨⟨1, 1⟩, [.call ⟨1, 1⟩ (.identifier ⟨1, 1⟩ (bytes "f")) [.bool ⟨1, 3⟩ true]]⟩

/-- A session in which `f` is bound. -/
def identitySession : Session := ((Session.new {}).eval {} (bytes "f = lambda g (x) x")).1

/-- After ten steps of `f(true)` the body of the closure comes next, in the newest scope. -/
theorem Session.iterate_callIdentity : ∃ z k,
    State.iterate State.step 10 (identitySession.start {} callIdentity) = .running z ∧
    z.control = .evaluate (.identifier ⟨1, 18⟩ (bytes "x")) 2 k ∧
    z.store.world.heap.frames.toList.map (fun f => (f.parent, f.bindings.map (·.1))) =
      [(none, [bytes "print", bytes "println", bytes "f"]), (some 0, [bytes "g"]),
        (some 1, [bytes "x"])] :=
  ⟨_, _, rfl, rfl, rfl⟩

/-- A closure of an earlier program is called. Its body is evaluated in a scope for its parameter,
inside the one for its name, and finds the parameter in the former. -/
theorem Session.lexical_addressing_called : ∃ (x : Moment) (z : State) (k : Continuation),
    Moment.Leads ⟨Session.new {}, [], none⟩ x ∧ x.state = some z ∧
      z.control = .evaluate (.identifier ⟨1, 18⟩ (bytes "x")) 2 k ∧
      x.heap.Outward 2 ([2, 1] ++ [x.session.globals]) ∧
      [2, 1].map x.heap.nameSet = [{bytes "x"}, {bytes "g"}] ∧
      x.heap.lookup 2 (bytes "x") = some 2 ∧ ∃ v, z.Proceeds z.store.world k v := by
  obtain ⟨z, k, hz, hcontrol, houtline⟩ := Session.iterate_callIdentity
  obtain ⟨st, result, hfirst⟩ : ∃ st result,
      ((Session.new {}).start {} bindIdentity).runWithin horizon = some (st, result) := ⟨_, _, rfl⟩
  have hframe : ∀ (i : Nat) (p : Option ScopeId) (names : List Text),
      [(none, [bytes "print", bytes "println", bytes "f"]), (some 0, [bytes "g"]),
        (some 1, [bytes "x"])][i]? = some (p, names) →
      ∃ f, z.store.world.heap.frames[i]? = some f ∧ f.parent = p ∧ f.names = names.toFinset := by
    intro i p names hi
    rw [← houtline, List.getElem?_map, Array.getElem?_toList] at hi
    obtain ⟨f, hf, heq⟩ := Option.map_eq_some_iff.1 hi
    cases heq
    exact ⟨f, hf, rfl, rfl⟩
  obtain ⟨f, hf, hfparent, hfnames⟩ := hframe 2 _ _ rfl
  obtain ⟨g, hg, hgparent, hgnames⟩ := hframe 1 _ _ rfl
  obtain ⟨r, hr, hrparent, -⟩ := hframe 0 _ _ rfl
  have hx : Moment.Leads ⟨Session.new {}, [], none⟩
      ⟨identitySession, [callIdentity, bindIdentity], some z⟩ := by
    have hsecond := Moment.leads_iterate identitySession [callIdentity, bindIdentity] 10
      (identitySession.start {} callIdentity)
    rw [hz] at hsecond
    have hbegun : Moment.Next ⟨identitySession, [bindIdentity], none⟩
        ⟨identitySession, [callIdentity, bindIdentity],
          some (identitySession.start {} callIdentity)⟩ :=
      .start {} (show Program.parse (bytes "f(true)") = .ok callIdentity from rfl)
    have hfirst := Moment.leads_eval []
      (show Program.parse (bytes "f = lambda g (x) x") = .ok bindIdentity from rfl) hfirst
    exact hfirst.trans (.head hbegun hsecond)
  obtain ⟨-, hnow⟩ := Session.lexical_addressing (Session.plain_new {}) hx .refl
  obtain ⟨σ, inner, ⟨-, hout, hnames⟩, hread⟩ := (hnow z rfl).1 _ _ _ hcontrol
  have hids : inner ++ [identitySession.globals] = [2, 1] ++ [0] :=
    hout.unique (.inner hf hfparent (.inner hg hgparent (.root hr hrparent)))
  obtain rfl : inner = [2, 1] := List.append_cancel_right hids
  have hsets : [2, 1].map z.store.world.heap.nameSet = [{bytes "x"}, {bytes "g"}] := by
    rw [List.map_cons, List.map_singleton, Heap.nameSet_eq hf, Heap.nameSet_eq hg, hfnames, hgnames]
    rfl
  obtain rfl := hnames.symm.trans hsets
  obtain ⟨t, _, v, ht, hlookup, -, -, hproceeds⟩ := hread _ _ 0 rfl rfl
  cases ht
  exact ⟨_, z, k, hx, rfl, hcontrol, hout, hsets, hlookup, v, hproceeds⟩

end Mycel
