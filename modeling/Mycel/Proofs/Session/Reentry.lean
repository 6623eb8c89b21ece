import Mycel.Proofs.Machine.Buffers
import Mycel.Proofs.Session.Progress

/-!
# Calls whose continuations are resumed again

The continuation of an argument can be captured, and resumed later, any number of times and in any
order with those of the other arguments. It keeps the callee, but the values of the arguments before
it are in the buffer of the call, which all of its continuations share. So a callee receives in each
place what was put there last (`Session.receives_iff`), and the values that were there when a
continuation was made only if nothing else has been put in their places since.
-/

namespace Mycel

/-- A call whose arguments are being gathered: what stays the same from one to the next. -/
structure Call where
  pos : Pos
  scope : ScopeId
  callee : Value
  buffer : Nat
  next : Continuation

namespace Call

/-- The step that goes on with the arguments `rest`, when the first `filled` ones are there. -/
def gather (c : Call) (rest : List Node) (filled : Nat) : Control :=
  .arguments c.pos rest c.scope c.callee c.buffer filled c.next

/-- The continuation of the argument before `rest`, when the first `filled` ones are there. -/
def continuation (c : Call) (rest : List Node) (filled : Nat) : Continuation :=
  .argument c.pos rest c.scope c.callee c.buffer filled c.next

/-- The callee has just been called, with these arguments. -/
def Receives (c : Call) (args : List Value) (s : State) : Prop :=
  c.callee.call? args c.next = some s.control

/-- In `n` steps a machine comes from the arguments `rest`, of which the first is next, to the call.
Their continuations, each made after the one before it has been resumed, are given the values `vs`.
-/
inductive Completes (c : Call) : List Node → Nat → List Value → Nat → State → State → Prop
  | call {s : State} {filled : Nat} (hs : s.control = c.gather [] filled) :
      Completes c [] filled [] 0 s s
  | argument {s y z d : State} {node : Node} {rest : List Node} {filled a n : Nat} {v : Value}
      {vs : List Value} (hs : s.control = c.gather (node :: rest) filled)
      (hy : State.iterate State.step a s = .running y)
      (hresume : y.control = .resume (c.continuation rest filled) v)
      (hb : y.mustBounce = false) (hz : y.step = .running z)
      (h : Completes c rest (filled + 1) vs n z d) :
      Completes c (node :: rest) filled (v :: vs) (a + 1 + n) s d

namespace Completes

variable {c : Call} {rest : List Node} {filled n : Nat} {vs : List Value} {s d : State}

theorem control (h : c.Completes rest filled vs n s d) : s.control = c.gather rest filled := by
  cases h with
  | call hs => exact hs
  | argument hs => exact hs

theorem iterate (h : c.Completes rest filled vs n s d) :
    State.iterate State.step n s = .running d := by
  induction h with
  | call => rfl
  | argument hs hy hresume hb hz h ih =>
    rw [State.iterate_add (State.iterate_next hy hz), ih]

theorem end_control (h : c.Completes rest filled vs n s d) :
    d.control = c.gather [] (filled + vs.length) := by
  induction h with
  | call hs => exact hs
  | argument hs hy hresume hb hz h ih =>
    rw [ih, List.length_cons]
    congr 1
    omega

/-- Each of the arguments has been put in its place. -/
theorem isSome_latest? (h : c.Completes rest filled vs n s d) {place : Nat} (hle : filled ≤ place)
    (hlt : place < filled + vs.length) : (s.latest? c.buffer place n).isSome = true := by
  induction h with
  | call =>
    rw [List.length_nil] at hlt
    omega
  | @argument s y z d node rest filled a n v vs hs hy hresume hb hz h ih =>
    rw [List.length_cons] at hlt
    rw [State.latest?_add (State.iterate_next hy hz), Option.isSome_or, Bool.or_eq_true]
    by_cases hplace : place = filled
    · have hputs : y.puts? c.buffer place = some v := by
        simp [State.puts?, hb, hresume, hplace, continuation, Control.puts?]
      refine .inr ?_
      rw [State.latest?_add hy, State.latest?_succ_running hz, hputs]
      rfl
    · exact .inl (ih (by omega) (by omega))

end Completes

end Call

/-! ## The invariant -/

/-- The builtins that write, and those that capture continuations, but none that holds one. -/
def Action.Initial : Action → Prop
  | .print | .println | .callcc => True
  | _ => False

theorem Store.Only.placed {st : Store} (hs : st.Only Action.Initial) : st.Placed := by
  refine hs.imp (fun action h => ?_) fun _ => id
  cases action with
  | print | println | callcc => trivial
  | _ => exact h.elim

namespace Moment

variable {x y : Moment}

/-- What there is at a moment puts values only after places that are filled. -/
def Placed (x : Moment) : Prop :=
  match x.state with
  | none => x.session.store.Placed
  | some s => s.Placed

theorem placed_next (hx : x.Placed) (hxy : Next x y) : y.Placed := by
  cases hxy with
  | start o hparse => exact ⟨⟨hx.world, hx.buffers⟩, trivial, trivial, rfl⟩
  | @step t ps z =>
    have hstep := State.placed_step hx
    cases hz : z.step with
    | running z' =>
      rw [hz] at hstep
      exact hstep
    | finished st result =>
      rw [hz] at hstep
      exact hstep
  | @host t u ps hglobals hheap hbuffers =>
    show u.store.Placed
    rw [Store.Placed, Store.holds_congr hbuffers]
    exact ⟨⟨hheap ▸ hx.world.heap, fun _ => False.elim⟩, hbuffers ▸ hx.buffers⟩

theorem placed_leads (hx : x.Placed) (hxy : x.Leads y) : y.Placed := by
  induction hxy with
  | refl => exact hx
  | tail _ hnext ih => exact placed_next ih hnext

end Moment

/-! ## What a callee receives -/

namespace Call

variable {c : Call} {rest : List Node} {filled n : Nat} {vs : List Value} {s d e : State}

theorem Receives.unique {args args' : List Value} (h : c.Receives args s)
    (h' : c.Receives args' s) : args = args' := by
  unfold Receives at h h'
  cases hf : c.callee with
  | closure | builtin =>
    rw [hf] at h h'
    cases h.trans h'.symm
    rfl
  | _ =>
    rw [hf] at h
    cases h

theorem length_buffered (hs : s.Placed) (hcontrol : s.control = c.gather rest filled) :
    (s.store.buffered c.buffer filled).length = filled := by
  have hplaces := hs.control
  rw [hcontrol] at hplaces
  exact Store.length_buffered hplaces.1

/-- The first places of a call, after some steps: what was put there last, or else what was there
before. -/
theorem Completes.getElem?_buffered (h : c.Completes rest filled vs n s d) (hs : s.Placed)
    (place : Nat) (hplace : place < filled + vs.length) :
    (d.store.buffered c.buffer (filled + vs.length))[place]? =
      (s.latest? c.buffer place n).or (s.store.buffered c.buffer filled ++ vs)[place]? := by
  rw [Store.getElem?_buffered hplace, State.valueAt?_iterate hs h.iterate]
  by_cases hlt : place < filled
  · have hlength : place < (s.store.buffered c.buffer filled).length := by
      rwa [length_buffered hs h.control]
    rw [List.getElem?_append_left hlength, Store.getElem?_buffered hlt]
  · -- An argument that was still to come has been put since, whoever put it last.
    obtain ⟨v, hv⟩ := Option.isSome_iff_exists.1 (h.isSome_latest? (by omega) hplace)
    rw [hv, Option.some_or, Option.some_or]

/-- The callee gets what is in the buffer. -/
theorem receives_of_step (hs : d.Placed) (hcontrol : d.control = c.gather [] filled)
    (hb : d.mustBounce = false) (he : d.step = .running e) :
    c.Receives (d.store.buffered c.buffer filled) e := by
  have heffect := State.advance_of_step hs hb he
  have hbuffered : d.pay.store.buffered c.buffer filled = d.store.buffered c.buffer filled := by
    rw [Store.buffered, Store.buffered, d.pay_buffers]
  rw [hcontrol, gather, Control.execute, hbuffered] at heffect
  unfold Receives
  cases hcall : c.callee.call? (d.store.buffered c.buffer filled) c.next with
  | none =>
    rw [hcall] at heffect
    cases heffect
  | some control =>
    rw [hcall] at heffect
    injection heffect with _ _ heffect
    rw [heffect]

end Call

/-- What a callee receives. In a session that starts without captured continuations, let the first
arguments of a call be there, and let the continuations of the other ones be resumed with `vs`,
sooner or later. Then in each place the callee receives what was put there last since, and else what
was there. So it receives the values that were there and `vs` just if these are what was put last in
their places, whatever else has been resumed in between. -/
theorem Session.receives_iff {session : Session} (hsession : session.store.Only Action.Initial)
    {x : Moment} (hx : Moment.Leads ⟨session, [], none⟩ x) {s : State} (hs : x.state = some s)
    {c : Call} {rest : List Node} {filled n : Nat} {vs : List Value} {d e : State}
    (h : c.Completes rest filled vs n s d) (hb : d.mustBounce = false)
    (he : d.step = .running e) :
    (∃ args, c.Receives args e ∧ args.length = filled + vs.length ∧
      ∀ place < filled + vs.length, args[place]? =
        (s.latest? c.buffer place n).or (s.store.buffered c.buffer filled ++ vs)[place]?) ∧
    (c.Receives (s.store.buffered c.buffer filled ++ vs) e ↔
      ∀ place < filled + vs.length, ∀ v, s.latest? c.buffer place n = some v →
        (s.store.buffered c.buffer filled ++ vs)[place]? = some v) := by
  have hplaced : s.Placed := by
    have hmoment := Moment.placed_leads (x := ⟨session, [], none⟩) hsession.placed hx
    rwa [Moment.Placed, hs] at hmoment
  have hplaced' := State.placed_iterate hplaced h.iterate
  have hcall := Call.receives_of_step hplaced' h.end_control hb he
  have hlength := Call.length_buffered hplaced' h.end_control
  have hget := h.getElem?_buffered hplaced
  refine ⟨⟨_, hcall, hlength, hget⟩, fun hown place hplace v hv => ?_, fun hlatest => ?_⟩
  · have hvalue := hget place hplace
    rwa [hcall.unique hown, hv, Option.some_or] at hvalue
  · have hown : d.store.buffered c.buffer (filled + vs.length) =
        s.store.buffered c.buffer filled ++ vs := by
      refine List.ext_getElem? fun place => ?_
      by_cases hplace : place < filled + vs.length
      · rw [hget place hplace]
        cases hv : s.latest? c.buffer place n with
        | none => rfl
        | some v => rw [hlatest place hplace v hv, Option.some_or]
      · have hlength' := Call.length_buffered hplaced h.control
        rw [List.getElem?_eq_none (by omega), List.getElem?_eq_none]
        rw [List.length_append]
        omega
    rwa [← hown]

/-! ## Continuations that are resumed -/

namespace Session

/-- The node of `callcc(lambda (k) k)`, from a column on. -/
def captureAt (column : Nat) : Node :=
  .call ⟨1, column⟩ (.identifier ⟨1, column⟩ (bytes "callcc"))
    [.lambda ⟨1, column + 7⟩ none [bytes "k"] (.identifier ⟨1, column + 18⟩ (bytes "k"))]

/-- The program of `(lambda (x, y) x(y))(callcc(lambda (k) k), print)`. -/
def resumeFirst : Program :=
  ⟨⟨1, 1⟩, [.call ⟨1, 2⟩
    (.lambda ⟨1, 2⟩ none [bytes "x", bytes "y"]
      (.call ⟨1, 16⟩ (.identifier ⟨1, 16⟩ (bytes "x")) [.identifier ⟨1, 18⟩ (bytes "y")]))
    [captureAt 22, .identifier ⟨1, 44⟩ (bytes "print")]]⟩

/-- The first argument is captured, and when the callee has been called it is resumed with the
second one. The callee then receives the second one twice. -/
theorem receives_resumeFirst : withCallcc.store.Only Action.Initial ∧
    ∃ (s d e : State) (c : Call) (rest : List Node) (v : Value),
      Moment.Leads ⟨withCallcc, [], none⟩ ⟨withCallcc, [resumeFirst], some s⟩ ∧
      c.Completes rest 0 [v, v] 30 s d ∧ d.mustBounce = false ∧ d.step = .running e ∧
      c.Receives [v, v] e := by
  have honly : withCallcc.store.Only Action.Initial := withCallcc_only ⟨trivial, trivial⟩ trivial
  obtain ⟨s, d, e, c, rest, v, hs, hcompletes, hb, he, hfirst, hsecond⟩ :
      ∃ (s d e : State) (c : Call) (rest : List Node) (v : Value),
        State.iterate State.step 5 (withCallcc.start {} resumeFirst) = .running s ∧
        c.Completes rest 0 [v, v] 30 s d ∧ d.mustBounce = false ∧ d.step = .running e ∧
        s.latest? c.buffer 0 30 = some v ∧ s.latest? c.buffer 1 30 = some v :=
    ⟨_, _, _, ⟨_, _, _, _, _⟩, _, _, rfl,
      .argument rfl (a := 26) rfl rfl rfl rfl (.argument rfl (a := 2) rfl rfl rfl rfl (.call rfl)),
      rfl, rfl, rfl, rfl⟩
  have hleads : Moment.Leads ⟨withCallcc, [], none⟩ ⟨withCallcc, [resumeFirst], some s⟩ := by
    have hiterate :=
      Moment.leads_iterate withCallcc [resumeFirst] 5 (withCallcc.start {} resumeFirst)
    rw [hs] at hiterate
    exact .head (.start {} (show Program.parse (bytes
      "(lambda (x, y) x(y))(callcc(lambda (k) k), print)") = .ok resumeFirst from rfl)) hiterate
  refine ⟨honly, s, d, e, c, rest, v, hleads, hcompletes, hb, he, ?_⟩
  refine (receives_iff honly hleads rfl hcompletes hb he).2.2 fun place hplace w hw => ?_
  have hplace : place = 0 ∨ place = 1 := by
    simp only [List.length_cons, List.length_nil] at hplace
    omega
  rcases hplace with rfl | rfl
  · exact hfirst.symm.trans hw
  · exact hsecond.symm.trans hw

/-- The second argument is resumed after the first one, which then is another value. -/
def resumeBothSource : Text :=
  bytes "g = false; (lambda (x, y) if y then if g then g(false) " ++
    bytes "else \x7b g = y; x(true) \x7d else x)(callcc(lambda (k) k), callcc(lambda (k) k))"

/-- The program of `resumeBothSource`. -/
def resumeBoth : Program :=
  ⟨⟨1, 1⟩, [
    .assign ⟨1, 1⟩ (.identifier ⟨1, 1⟩ (bytes "g")) (.bool ⟨1, 5⟩ false),
    .call ⟨1, 13⟩
      (.lambda ⟨1, 13⟩ none [bytes "x", bytes "y"]
        (.branch ⟨1, 27⟩ (.identifier ⟨1, 30⟩ (bytes "y"))
          (.branch ⟨1, 37⟩ (.identifier ⟨1, 40⟩ (bytes "g"))
            (.call ⟨1, 47⟩ (.identifier ⟨1, 47⟩ (bytes "g")) [.bool ⟨1, 49⟩ false])
            (.program ⟨1, 61⟩ [
              .assign ⟨1, 63⟩ (.identifier ⟨1, 63⟩ (bytes "g")) (.identifier ⟨1, 67⟩ (bytes "y")),
              .call ⟨1, 70⟩ (.identifier ⟨1, 70⟩ (bytes "x")) [.bool ⟨1, 72⟩ true]]))
          (.identifier ⟨1, 85⟩ (bytes "x"))))
      [captureAt 88, captureAt 110]]⟩

set_option maxRecDepth 2000 in
theorem parse_resumeBoth : Program.parse resumeBothSource = .ok resumeBoth := rfl

/-- What becomes of its evaluation in `n` steps. -/
def resumeBothAfter (n : Nat) : Progress :=
  State.iterate State.step n (withCallcc.start {} resumeBoth)

/-- The second argument is captured when the first one is an escape, then the first argument is
resumed with `true`, and at last the second one with `false`, by the escape that was captured. The
callee does not receive the escape that was the first argument then, but `true`. -/
theorem receives_disturbed_resumeBoth :
    Program.parse resumeBothSource = .ok resumeBoth ∧
    ∃ (c : Call) (s t u d e : State) (f : Value) (pos : Pos) (scope : ScopeId) (buffer : Nat)
      (k : Continuation),
      resumeBothAfter 23 = .running s ∧ s.control = c.gather [captureAt 110] 1 ∧
      resumeBothAfter 31 = .running t ∧
      t.control = .perform .callcc [f] (c.continuation [] 1) ∧
      resumeBothAfter 87 = .running u ∧
      u.control = .arguments pos [] scope
        (.builtin t.store.world.fresh (bytes "escape") (.escape 0 (c.continuation [] 1)))
        buffer 1 k ∧
      u.store.buffered buffer 1 = [.bool false] ∧
      c.Completes [captureAt 110] 1 [.bool false] 67 s d ∧ d.mustBounce = false ∧
      d.step = .running e ∧
      c.Receives [.bool true, .bool false] e ∧
      ¬c.Receives (s.store.buffered c.buffer 1 ++ [.bool false]) e := by
  refine ⟨parse_resumeBoth, ⟨_, _, _, _, _⟩, _, _, _, _, _, _, _, _, _, _, rfl, rfl, rfl, rfl, rfl,
    rfl, rfl, .argument rfl (a := 66) rfl rfl rfl rfl (.call rfl), rfl, rfl, ?_, ?_⟩
  · exact rfl
  · intro h
    cases h

end Session

end Mycel
