import Mycel.Proofs.Evaluator.Direct
import Mycel.Proofs.Machine.Budget

/-!
# The machine and the direct evaluator

The machine does what the direct evaluator says, for programs that have only the builtins that
write. If the direct evaluator has an outcome, the machine hands it over to whatever continuation
the node was evaluated for (`Answers`), by induction on the depth. If the machine comes to an end,
the direct evaluator has an outcome with a depth of as many steps (`Total`), by induction on their
number.
-/

namespace Mycel

namespace State

/-- Where the evaluation without guards comes to, sooner or later. -/
def Arrives (s : State) (q : Progress) : Prop := ∃ n, iterate execute n s = q

variable {s s' : State} {q : Progress}

theorem arrives_execute (s : State) : s.Arrives s.execute := by
  refine ⟨1, ?_⟩
  cases h : s.execute with
  | running s' => exact iterate_succ_running h 0
  | finished st result => exact iterate_succ_finished h 0

theorem Arrives.trans (h : s.Arrives (.running s')) (h' : s'.Arrives q) : s.Arrives q := by
  obtain ⟨a, ha⟩ := h
  obtain ⟨b, hb⟩ := h'
  exact ⟨a + b, (iterate_add ha b).trans hb⟩

end State

/-! ## Buffers -/

namespace Store

/-- The buffers of a store are still there, as they were. -/
def Keeps (st st' : Store) : Prop :=
  ∀ (i : Nat) (vs : Array Value), st.buffers[i]? = some vs → st'.buffers[i]? = some vs

variable {st st₁ st₂ : Store}

theorem Keeps.refl (st : Store) : st.Keeps st := fun _ _ h => h

theorem Keeps.trans (h : st.Keeps st₁) (h' : st₁.Keeps st₂) : st.Keeps st₂ :=
  fun i vs hi => h' i vs (h i vs hi)

theorem keeps_addBuffer (st : Store) : st.Keeps st.addBuffer.1 := by
  intro i vs hi
  obtain ⟨hlt, hvs⟩ := Array.getElem?_eq_some_iff.1 hi
  exact (Array.getElem?_push_lt hlt).trans (congrArg some hvs)

theorem getElem?_addBuffer (st : Store) :
    st.addBuffer.1.buffers[st.addBuffer.2]? = some #[] := by
  simp [addBuffer]

/-- A value that goes to the end of a buffer. -/
theorem getElem?_fillBuffer {buffer : Nat} {vs : Array Value}
    (h : st.buffers[buffer]? = some vs) (v : Value) :
    (st.fillBuffer buffer vs.size v).buffers[buffer]? = some (vs.push v) := by
  simp [fillBuffer, Array.getElem?_modify, h]

theorem getElem?_fillBuffer_of_ne {buffer i : Nat} (h : i ≠ buffer) (filled : Nat) (v : Value) :
    (st.fillBuffer buffer filled v).buffers[i]? = st.buffers[i]? := by
  simp [fillBuffer, Array.getElem?_modify, h.symm]

theorem buffered_eq {buffer : Nat} {vs : Array Value} (h : st.buffers[buffer]? = some vs) :
    st.buffered buffer vs.size = vs.toList := by
  rw [buffered, h, Option.getD_some]
  exact List.take_of_length_le (Nat.le_refl _)

end Store

/-! ## What the machine hands over -/

section

variable (m : Nat) (run : Run) (waiting : List Suspended)

/-- A value goes to a continuation, and an error ends the run. -/
def handOver (k : Continuation) (st : Store) : Except Error Value → Progress
  | .ok v => .running ⟨st, m, .resume k v, run, waiting⟩
  | .error e => State.fail run waiting st e

/-- The machine hands over an outcome, and leaves the buffers as they were. -/
def Answers (st : Store) (c : Control) (k : Continuation) (o : Direct.Outcome Value) : Prop :=
  ∃ st', State.Arrives ⟨st, m, c, run, waiting⟩ (handOver m run waiting k st' o.1) ∧
    st'.world = o.2 ∧ st.Keeps st'

end

variable {m : Nat} {run : Run} {waiting : List Suspended} {st st₁ : Store} {c c₁ : Control}
  {k k₁ : Continuation} {o : Direct.Outcome Value} {v : Value} {e : Error} {w : World}

namespace Answers

theorem step (h : c.execute st m = .advance st₁ m c₁) (hkeeps : st.Keeps st₁)
    (h₁ : Answers m run waiting st₁ c₁ k o) : Answers m run waiting st c k o := by
  obtain ⟨st', harr, hw, hkeeps'⟩ := h₁
  refine ⟨st', State.Arrives.trans ?_ harr, hw, hkeeps.trans hkeeps'⟩
  have hexec := State.arrives_execute ⟨st, m, c, run, waiting⟩
  rwa [State.execute, h] at hexec

theorem of_resume (st₁ : Store) (h : c.execute st m = .advance st₁ m (.resume k v))
    (hkeeps : st.Keeps st₁) :
    Answers m run waiting st c k (.ok v, st₁.world) :=
  step h hkeeps ⟨st₁, ⟨0, rfl⟩, rfl, .refl st₁⟩

theorem of_fail (h : c.execute st m = .fail st₁ e) (hkeeps : st.Keeps st₁) :
    Answers m run waiting st c k (.error e, st₁.world) := by
  refine ⟨st₁, ?_, rfl, hkeeps⟩
  have hexec := State.arrives_execute ⟨st, m, c, run, waiting⟩
  rwa [State.execute, h] at hexec

theorem bind (h : Answers m run waiting st c k₁ (.ok v, w))
    (h₁ : ∀ st₁, st₁.world = w → st.Keeps st₁ → Answers m run waiting st₁ (.resume k₁ v) k o) :
    Answers m run waiting st c k o := by
  obtain ⟨st₁, harr, hw, hkeeps⟩ := h
  obtain ⟨st', harr', hw', hkeeps'⟩ := h₁ st₁ hw hkeeps
  exact ⟨st', harr.trans harr', hw', hkeeps.trans hkeeps'⟩

end Answers

/-- The machine gathers the arguments of a call in a buffer that holds `vs`, and leaves the other
buffers as they were. -/
def Gathers (m : Nat) (run : Run) (waiting : List Suspended) (st : Store) (pos : Pos)
    (nodes : List Node) (scope : ScopeId) (callee : Value) (buffer : Nat) (vs : Array Value)
    (k : Continuation) (o : Direct.Outcome (List Value)) : Prop :=
  ∃ st', State.Arrives ⟨st, m, .arguments pos nodes scope callee buffer vs.size k, run, waiting⟩
      (match o.1 with
        | .ok us => .running ⟨st', m, .arguments pos [] scope callee buffer (vs ++ us).size k, run,
            waiting⟩
        | .error e => State.fail run waiting st' e) ∧
    st'.world = o.2 ∧
    (∀ i us, i ≠ buffer → st.buffers[i]? = some us → st'.buffers[i]? = some us) ∧
    ∀ us, o.1 = .ok us → st'.buffers[buffer]? = some (vs ++ us)

/-! ## From the direct evaluator to the machine -/

/-- The machine hands over every outcome that an evaluation has. -/
def Follows (m : Nat) (run : Run) (waiting : List Suspended) (c : Continuation → Control)
    (x : Direct.Evaluation Value) : Prop :=
  ∀ st k o, x st.world = some o → Answers m run waiting st (c k) k o

/-! ### Parts that need no evaluation -/

theorem execute_branch (st : Store) (m : Nat) (whenTrue whenFalse : Node) (scope : ScopeId)
    (k : Continuation) (v : Value) :
    (Control.resume (.branch whenTrue whenFalse scope k) v).execute st m =
      (if v.isTruthy then
        if whenTrue.isPresent then .advance st m (.evaluate whenTrue scope k)
        else .advance st m (.resume k v)
      else if whenFalse.isPresent then .advance st m (.evaluate whenFalse scope k)
      else .advance st m (.resume k (.bool false))) := rfl

theorem execute_bindings (st : Store) (m : Nat) (name : Text) (definition : Node)
    (rest : List (Text × Node)) (body : Node) (scope : ScopeId) (k : Continuation) :
    (Control.bindings ((name, definition) :: rest) body scope k).execute st m =
      (if definition.isPresent then
        .advance st m (.evaluate definition scope (.bind name rest body scope k))
      else st.bindNext m scope name (.bool false) rest body k) := rfl

/-- A call whose arguments are all in their buffer, of something that can be called. -/
theorem execute_call {pos : Pos} {scope : ScopeId} {f : Value} {buffer : Nat} {vs : Array Value}
    (hvs : st.buffers[buffer]? = some vs) (hf : f.call? vs.toList k = some c) :
    (Control.arguments pos [] scope f buffer vs.size k).execute st m = .advance st m c := by
  simp only [Control.execute, Store.buffered_eq hvs, hf]

theorem answers_right (st : Store) (pos : Pos) (operator : Operator) (a b : Value)
    (k : Continuation) :
    Answers m run waiting st (.resume (.right pos operator a k) b) k
      ((operator.apply a b).mapError (·.error pos), st.world) := by
  cases h : operator.apply a b with
  | ok v =>
    refine Answers.of_resume st ?_ (.refl st)
    simp only [Control.execute, Store.resume, h]
  | error fault =>
    refine Answers.of_fail ?_ (.refl st)
    simp only [Control.execute, Store.resume, h]

theorem answers_identifier (st : Store) (pos : Pos) (name : Text) (scope : ScopeId)
    (k : Continuation) :
    Answers m run waiting st (.evaluate (.identifier pos name) scope k) k
      (Direct.read scope pos name st.world) := by
  unfold Direct.read
  cases hget : st.world.heap.get? scope name with
  | some v =>
    refine Answers.of_resume st ?_ (.refl st)
    simp only [Control.execute, Store.evaluate, hget]
  | none =>
    refine Answers.of_fail ?_ (.refl st)
    simp only [Control.execute, Store.evaluate, hget]

theorem answers_assign (st : Store) (pos : Pos) (name : Text) (scope : ScopeId) (v : Value)
    (k : Continuation) :
    Answers m run waiting st (.resume (.assign pos name scope k) v) k
      (Direct.assign scope pos name v st.world) := by
  unfold Direct.assign Heap.set?
  cases htarget : st.world.heap.target? scope name with
  | some t =>
    refine Answers.of_resume { st with world := st.world.define t name v } ?_ (.refl st)
    simp only [Control.execute, Store.resume, htarget]
  | none =>
    refine Answers.of_fail ?_ (.refl st)
    simp only [Control.execute, Store.resume, htarget]

theorem answers_write (st : Store) {primitive : String} {t : Text} {args : List Value}
    {action : Action} (k : Continuation)
    (h : st.perform m args k action = st.writeFor m primitive t k) :
    Answers m run waiting st (.perform action args k) k (Direct.write primitive t st.world) := by
  unfold Direct.write
  cases hwrite : st.world.output.write? t with
  | some output =>
    refine Answers.of_resume { st with world := { st.world with output } } ?_ (.refl st)
    simp only [Control.execute, h, Store.writeFor, hwrite]
  | none =>
    refine Answers.of_fail ?_ (.refl st)
    simp only [Control.execute, h, Store.writeFor, hwrite]

/-- The call of a closure whose arguments are in a buffer. -/
theorem answers_closure {pos : Pos} {closure : Closure} {buffer : Nat} {vs : Array Value}
    {scope : ScopeId} (st : Store) (hvs : st.buffers[buffer]? = some vs)
    (h : Answers m run waiting { st with world := (st.world.enter closure vs.toList).1 }
      (.evaluate closure.body (st.world.enter closure vs.toList).2 k) k o) :
    Answers m run waiting st (.arguments pos [] scope (.closure closure) buffer vs.size k) k o :=
  Answers.step (execute_call hvs rfl) (.refl st) (Answers.step rfl (.refl st) h)

/-- The call of a builtin that writes. -/
theorem answers_builtin {pos : Pos} {id : Nat} {name : Text} {action : Action} {buffer : Nat}
    {vs : Array Value} {scope : ScopeId} {primitive : String} {t : Text} (st : Store)
    (hvs : st.buffers[buffer]? = some vs)
    (h : st.perform m vs.toList k action = st.writeFor m primitive t k) :
    Answers m run waiting st
      (.arguments pos [] scope (.builtin id name action) buffer vs.size k) k
      (Direct.write primitive t st.world) :=
  Answers.step (execute_call hvs rfl) (.refl st) (answers_write st k h)

/-! ### Parts that need it -/

/-- A part is evaluated first, and what comes after it gets its value. -/
theorem Answers.after {x : Direct.Evaluation Value} {f : Value → Direct.Evaluation Value}
    (h : (x >>= f) st.world = some o)
    (hx : ∀ o₁, x st.world = some o₁ → Answers m run waiting st c k₁ o₁)
    (hf : ∀ v st₁, st.Keeps st₁ → f v st₁.world = some o →
      Answers m run waiting st₁ (.resume k₁ v) k o) :
    Answers m run waiting st c k o := by
  obtain ⟨e, w, hxe, rfl⟩ | ⟨v, w, hxv, hfv⟩ := Direct.Evaluation.bind_cases h
  · exact hx _ hxe
  · refine (hx _ hxv).bind fun st₁ hw hkeeps => ?_
    subst hw
    exact hf v st₁ hkeeps hfv

section

variable {evaluate : ScopeId → Node → Direct.Evaluation Value}
  (ih : ∀ scope node, Follows m run waiting (.evaluate node scope) (evaluate scope node))

include ih

theorem follows_sequence (scope : ScopeId) (last : Value) (nodes : List Node) :
    Follows m run waiting (.sequence nodes scope last)
      (Direct.sequence evaluate scope last nodes) := by
  induction nodes generalizing last with
  | nil =>
    intro st k o h
    cases h
    exact Answers.of_resume st rfl (.refl st)
  | cons node rest ihrest =>
    intro st k o h
    refine Answers.step rfl (.refl st) (Answers.after h (ih scope node st _) ?_)
    exact fun v st₁ _ h => Answers.step rfl (.refl st₁) (ihrest v st₁ k o h)

theorem follows_bindings (scope : ScopeId) (bs : List (Text × Node)) (body : Node) :
    Follows m run waiting (.bindings bs body scope)
      (Direct.bindings evaluate scope bs body) := by
  induction bs generalizing scope with
  | nil => exact fun st k o h => Answers.step rfl (.refl st) (ih scope body st k o h)
  | cons b rest ihrest =>
    intro st k o h
    obtain ⟨name, definition⟩ := b
    have hexec := execute_bindings st m name definition rest body scope k
    -- The same for a definition that was evaluated and for one that is missing.
    have hnext : ∀ v st₁ c₁, c₁.execute st₁ m = st₁.bindNext m scope name v rest body k →
        Direct.bindings evaluate (st₁.world.bindIn scope name v).2 rest body
          (st₁.world.bindIn scope name v).1 = some o →
        Answers m run waiting st₁ c₁ k o := by
      intro v st₁ c₁ hexec h
      exact Answers.step hexec (.refl st₁)
        (ihrest _ { st₁ with world := (st₁.world.bindIn scope name v).1 } k o h)
    rw [Direct.bindings, Direct.orFalse] at h
    split_ifs at h hexec
    · refine Answers.step hexec (.refl st) (Answers.after h (ih scope definition st _) ?_)
      exact fun v st₁ _ h => hnext v st₁ _ rfl h
    · exact hnext (.bool false) st _ hexec h

theorem answers_call {pos : Pos} {scope : ScopeId} {f : Value} {buffer : Nat} {vs : Array Value}
    (hvs : st.buffers[buffer]? = some vs)
    (h : Direct.call evaluate pos f vs.toList st.world = some o) :
    Answers m run waiting st (.arguments pos [] scope f buffer vs.size k) k o := by
  cases f with
  | closure closure => exact answers_closure st hvs (ih _ _ _ k o h)
  | builtin id name action =>
    cases action with
    | print | println =>
      cases h
      exact answers_builtin st hvs rfl
    | _ => cases h
  | _ =>
    cases h
    exact Answers.of_fail rfl (.refl st)

/-- The arguments of a call go to their buffer one after the other, behind those that are there. -/
theorem gathers_arguments {pos : Pos} {scope : ScopeId} {callee : Value} {buffer : Nat}
    {vs : Array Value} {nodes : List Node} {o : Direct.Outcome (List Value)}
    (hvs : st.buffers[buffer]? = some vs)
    (h : Direct.arguments evaluate scope nodes st.world = some o) :
    Gathers m run waiting st pos nodes scope callee buffer vs k o := by
  induction nodes generalizing st vs o with
  | nil =>
    cases h
    refine ⟨st, ⟨0, ?_⟩, rfl, fun _ _ _ hi => hi, fun us hus => ?_⟩
    · simp [State.iterate]
    · cases hus
      simpa using hvs
  | cons node rest ihrest =>
    have hstart := State.arrives_execute
      ⟨st, m, .arguments pos (node :: rest) scope callee buffer vs.size k, run, waiting⟩
    obtain ⟨e, w₁, hv, rfl⟩ | ⟨v, w₁, hv, h⟩ := Direct.Evaluation.bind_cases h
    · obtain ⟨st₁, harr₁, rfl, hkeeps⟩ := ih scope node st _ _ hv
      refine ⟨st₁, hstart.trans harr₁, rfl, fun i us _ hi => hkeeps i us hi, fun us hus => ?_⟩
      cases hus
    · obtain ⟨st₁, harr₁, rfl, hkeeps⟩ := ih scope node st _ _ hv
      have hfill := State.arrives_execute
        ⟨st₁, m, .resume (.argument pos rest scope callee buffer vs.size k) v, run, waiting⟩
      have hpush := Store.getElem?_fillBuffer (hkeeps buffer vs hvs) v
      have hkept : ∀ i us, i ≠ buffer → st.buffers[i]? = some us →
          (st₁.fillBuffer buffer vs.size v).buffers[i]? = some us := by
        intro i us hne hi
        rw [Store.getElem?_fillBuffer_of_ne hne]
        exact hkeeps i us hi
      obtain ⟨e, w₂, hus, rfl⟩ | ⟨us, w₂, hus, h⟩ := Direct.Evaluation.bind_cases h
      · obtain ⟨st₂, harr₂, rfl, hother, -⟩ := ihrest hpush hus
        rw [Array.size_push] at harr₂
        refine ⟨st₂, ((hstart.trans harr₁).trans hfill).trans harr₂, rfl,
          fun i us hne hi => hother i us hne (hkept i us hne hi), fun us hus => ?_⟩
        cases hus
      · obtain ⟨st₂, harr₂, rfl, hother, hbuffer⟩ := ihrest hpush hus
        have happend : vs.push v ++ us = vs ++ (v :: us) := by simp
        rw [Array.size_push] at harr₂
        cases h
        refine ⟨st₂, ?_, rfl, fun i us hne hi => hother i us hne (hkept i us hne hi), ?_⟩
        · dsimp only
          rw [← happend]
          exact ((hstart.trans harr₁).trans hfill).trans harr₂
        · rintro _ ⟨⟩
          rw [← happend]
          exact hbuffer us rfl

/-- The arguments of a call go to a buffer of its own. -/
theorem answers_callee {pos : Pos} {nodes : List Node} {scope : ScopeId} {f : Value}
    (h : (do
      let vs ← Direct.arguments evaluate scope nodes
      Direct.call evaluate pos f vs) st.world = some o) :
    Answers m run waiting st (.resume (.callee pos nodes scope k) f) k o := by
  have hstart := State.arrives_execute ⟨st, m, .resume (.callee pos nodes scope k) f, run, waiting⟩
  have hkeeps : ∀ st₁ : Store, (∀ i us, i ≠ st.addBuffer.2 →
      st.addBuffer.1.buffers[i]? = some us → st₁.buffers[i]? = some us) → st.Keeps st₁ := by
    intro st₁ hother i us hi
    have hlt : i < st.buffers.size := (Array.getElem?_eq_some_iff.1 hi).1
    exact hother i us (Nat.ne_of_lt hlt) (st.keeps_addBuffer i us hi)
  obtain ⟨e, w₁, hvs, rfl⟩ | ⟨us, w₁, hvs, h⟩ := Direct.Evaluation.bind_cases h
  · obtain ⟨st₁, harr, rfl, hother, -⟩ :=
      gathers_arguments ih st.getElem?_addBuffer hvs
    exact ⟨st₁, hstart.trans harr, rfl, hkeeps st₁ hother⟩
  · obtain ⟨st₁, harr, rfl, hother, hbuffer⟩ :=
      gathers_arguments ih st.getElem?_addBuffer hvs
    obtain ⟨st₂, harr₂, hw₂, hkeeps₂⟩ := answers_call ih (hbuffer us rfl) (by simpa using h)
    exact ⟨st₂, (hstart.trans harr).trans harr₂, hw₂, (hkeeps st₁ hother).trans hkeeps₂⟩

theorem follows_value (scope : ScopeId) (node : Node) :
    Follows m run waiting (.evaluate node scope) (Direct.value evaluate scope node) := by
  intro st k o h
  cases node with
  | number | string | bool =>
    cases h
    exact Answers.of_resume st rfl (.refl st)
  | identifier pos name =>
    cases h
    exact answers_identifier st pos name scope k
  | assign pos target definition =>
    cases target with
    | identifier pos name =>
      refine Answers.step rfl (.refl st) (Answers.after h (ih scope definition st _) ?_)
      intro v st₁ _ h
      cases h
      exact answers_assign st₁ pos name scope v k
    | _ =>
      cases h
      exact Answers.of_fail rfl (.refl st)
  | binary pos operator left right =>
    refine Answers.step rfl (.refl st) (Answers.after h (ih scope left st _) ?_)
    intro a st₁ _ h
    refine Answers.step rfl (.refl st₁) (Answers.after h (ih scope right st₁ _) ?_)
    intro b st₂ _ h
    cases h
    exact answers_right st₂ pos operator a b k
  | branch pos condition whenTrue whenFalse =>
    refine Answers.step rfl (.refl st) (Answers.after h (ih scope condition st _) ?_)
    intro v st₁ _ h
    have hexec := execute_branch st₁ m whenTrue whenFalse scope k v
    rw [Direct.orFalse] at h
    split_ifs at h hexec
    · exact Answers.step hexec (.refl st₁) (ih scope whenTrue st₁ k o h)
    · cases h
      exact Answers.of_resume st₁ hexec (.refl st₁)
    · exact Answers.step hexec (.refl st₁) (ih scope whenFalse st₁ k o h)
    · cases h
      exact Answers.of_resume st₁ hexec (.refl st₁)
  | lambda pos name params body =>
    cases h
    exact Answers.of_resume
      { st with world := (st.world.makeClosure scope name params body).1 } rfl (.refl st)
  | program pos body =>
    exact Answers.step rfl (.refl st) (follows_sequence ih scope (.bool false) body st k o h)
  | call pos callee args =>
    refine Answers.step rfl (.refl st) (Answers.after h (ih scope callee st _) ?_)
    exact fun f st₁ _ h => answers_callee ih h
  | binding pos bs body =>
    exact Answers.step rfl (.refl st) (follows_bindings ih scope bs body st k o h)
  | missing =>
    cases h
    exact Answers.of_fail rfl (.refl st)

end

/-- The machine does what the direct evaluator says. -/
theorem follows_evaluate (depth : Nat) (scope : ScopeId) (node : Node) :
    Follows m run waiting (.evaluate node scope) (Direct.evaluate depth scope node) := by
  induction depth generalizing scope node with
  | zero =>
    intro st k o h
    cases h
  | succ depth ih => exact follows_value ih scope node

/-! ## From the machine to the direct evaluator -/

theorem State.only_iterate {p : Action → Prop} {s : State} (hp : ∀ m, Provides p m)
    (hs : s.Only p) (n : Nat) : (iterate execute n s).Only p := by
  induction n generalizing s with
  | zero => exact hs
  | succ n ih =>
    have hexec := only_execute (hp s.machine) hs
    cases h : s.execute with
    | running s' =>
      rw [h] at hexec
      rw [iterate_succ_running h]
      exact ih hexec
    | finished st result =>
      rw [h] at hexec
      rw [iterate_succ_finished h]
      exact hexec

/-- The only run there is comes to an end within `n` steps, and has no builtins but those that
write. -/
structure Halts (m : Nat) (run : Run) (n : Nat) (st : Store) (c : Control) : Prop where
  only : State.Only Action.Primitive ⟨st, m, c, run, []⟩
  ends : ∃ st' result, State.iterate State.execute n ⟨st, m, c, run, []⟩ = .finished st' result

namespace Halts

variable {n : Nat} {scope : ScopeId}

theorem arrive (h : Halts m run n st c)
    (ha : State.Arrives ⟨st, m, c, run, []⟩ (.running ⟨st₁, m, c₁, run, []⟩)) :
    Halts m run n st₁ c₁ := by
  obtain ⟨a, ha⟩ := ha
  obtain ⟨st', result, hn⟩ := h.ends
  have hlt := State.lt_of_iterate_finished ha hn
  obtain ⟨d, rfl⟩ := Nat.exists_eq_add_of_le (Nat.le_of_lt hlt)
  rw [State.iterate_add ha] at hn
  have honly := State.only_iterate (fun m => (Action.primitive_confined m).toProvides) h.only a
  rw [ha] at honly
  refine ⟨honly, st', result, ?_⟩
  rw [Nat.add_comm]
  exact State.iterate_add_finished hn a

theorem advance (h : Halts m run n st c) (he : c.execute st m = .advance st₁ m c₁) :
    Halts m run n st₁ c₁ := by
  have hexec := State.arrives_execute ⟨st, m, c, run, []⟩
  rw [State.execute, he] at hexec
  exact h.arrive hexec

/-- A step is one of those that there are. -/
theorem step (h : Halts m run (n + 1) st c) (he : c.execute st m = .advance st₁ m c₁) :
    Halts m run n st₁ c₁ := by
  obtain ⟨st', result, hn⟩ := h.ends
  have hexec : State.execute ⟨st, m, c, run, []⟩ = .running ⟨st₁, m, c₁, run, []⟩ := by
    rw [State.execute, he]
    rfl
  rw [State.iterate_succ_running hexec] at hn
  exact ⟨(h.advance he).only, st', result, hn⟩

end Halts

/-- Whatever the machine brings to an end within `depth` steps, the direct evaluator brings to an
outcome with that depth. -/
def Total (m : Nat) (run : Run) (depth : Nat) : Prop :=
  ∀ st scope node k, Halts m run depth st (.evaluate node scope k) →
    (Direct.evaluate depth scope node).Ends st.world

section

variable {depth : Nat} (ih : Total m run depth) {scope : ScopeId}

include ih

/-- A part has an outcome, and so has what comes after it. -/
theorem Total.after {node : Node} {f : Value → Direct.Evaluation Value}
    (h : Halts m run depth st (.evaluate node scope k₁))
    (hf : ∀ v st₁, Halts m run depth st₁ (.resume k₁ v) → (f v).Ends st₁.world) :
    (Direct.evaluate depth scope node >>= f).Ends st.world := by
  refine (ih st scope node k₁ h).bind fun v w hv => ?_
  obtain ⟨st₁, harr, rfl, -⟩ := follows_evaluate depth scope node st k₁ _ hv
  exact hf v st₁ (h.arrive harr)

theorem ends_sequence {last : Value} {nodes : List Node}
    (h : Halts m run depth st (.sequence nodes scope last k)) :
    (Direct.sequence (Direct.evaluate depth) scope last nodes).Ends st.world := by
  induction nodes generalizing st last with
  | nil => exact ⟨_, rfl⟩
  | cons node rest ihrest =>
    exact ih.after (h.advance rfl) fun v st₁ h₁ => ihrest (h₁.advance rfl)

theorem ends_bindings {bs : List (Text × Node)} {body : Node}
    (h : Halts m run depth st (.bindings bs body scope k)) :
    (Direct.bindings (Direct.evaluate depth) scope bs body).Ends st.world := by
  induction bs generalizing st scope with
  | nil => exact ih _ _ _ _ (h.advance rfl)
  | cons b rest ihrest =>
    obtain ⟨name, definition⟩ := b
    have hexec := execute_bindings st m name definition rest body scope k
    rw [Direct.bindings, Direct.orFalse]
    split_ifs at hexec ⊢
    · exact ih.after (h.advance hexec) fun v st₁ h₁ => ihrest (h₁.advance rfl)
    · exact ihrest (h.advance hexec)

theorem ends_call {pos : Pos} {f : Value} {buffer : Nat} {vs : Array Value}
    (hvs : st.buffers[buffer]? = some vs)
    (h : Halts m run depth st (.arguments pos [] scope f buffer vs.size k)) :
    (Direct.call (Direct.evaluate depth) pos f vs.toList).Ends st.world := by
  cases f with
  | closure c => exact ih _ _ _ _ ((h.advance (execute_call hvs rfl)).advance rfl)
  | builtin id name action =>
    have honly : (Value.builtin id name action).Only Action.Primitive := h.only.control.1
    cases action with
    | print | println => exact ⟨_, rfl⟩
    | escape machine k => exact honly.1.elim
    | _ => exact honly.elim
  | _ => exact ⟨_, rfl⟩

theorem ends_arguments {pos : Pos} {nodes : List Node} {callee : Value} {buffer : Nat}
    {vs : Array Value} (hvs : st.buffers[buffer]? = some vs)
    (h : Halts m run depth st (.arguments pos nodes scope callee buffer vs.size k)) :
    (Direct.arguments (Direct.evaluate depth) scope nodes).Ends st.world := by
  induction nodes generalizing st vs with
  | nil => exact ⟨_, rfl⟩
  | cons node rest ihrest =>
    have h₁ := h.advance rfl
    refine (ih _ _ _ _ h₁).bind fun v w hv => ?_
    obtain ⟨st₁, harr, rfl, hkeeps⟩ := follows_evaluate depth scope node st _ _ hv
    have hfill := Store.getElem?_fillBuffer (hkeeps buffer vs hvs) v
    have h₂ := (h₁.arrive harr).advance rfl
    rw [← Array.size_push v] at h₂
    exact (ihrest hfill h₂).bind fun us w _ => ⟨_, rfl⟩

theorem ends_value {node : Node} (h : Halts m run (depth + 1) st (.evaluate node scope k)) :
    (Direct.evaluate (depth + 1) scope node).Ends st.world := by
  cases node with
  | number | string | bool | identifier | lambda | missing => exact ⟨_, rfl⟩
  | assign pos target definition =>
    cases target with
    | identifier pos name => exact ih.after (h.step rfl) fun v st₁ _ => ⟨_, rfl⟩
    | _ => exact ⟨_, rfl⟩
  | binary pos operator left right =>
    refine ih.after (h.step rfl) fun a st₁ h₁ => ?_
    exact ih.after (h₁.advance rfl) fun b st₂ _ => ⟨_, rfl⟩
  | branch pos condition whenTrue whenFalse =>
    refine ih.after (h.step rfl) fun v st₁ h₁ => ?_
    have hexec := execute_branch st₁ m whenTrue whenFalse scope k v
    rw [Direct.orFalse]
    split_ifs at hexec ⊢
    · exact ih _ _ _ _ (h₁.advance hexec)
    · exact ⟨_, rfl⟩
    · exact ih _ _ _ _ (h₁.advance hexec)
    · exact ⟨_, rfl⟩
  | program pos body => exact ends_sequence ih (h.step rfl)
  | call pos callee args =>
    refine ih.after (h.step rfl) fun f st₁ h₁ => ?_
    have h₂ := h₁.advance rfl
    refine (ends_arguments ih st₁.getElem?_addBuffer h₂).bind fun us w hus => ?_
    obtain ⟨st₂, harr, rfl, -, hbuffer⟩ :=
      gathers_arguments (follows_evaluate depth) st₁.getElem?_addBuffer hus
    simpa using ends_call ih (hbuffer us rfl) (h₂.arrive harr)
  | binding pos bs body => exact ends_bindings ih (h.step rfl)

end

theorem total (m : Nat) (run : Run) (depth : Nat) : Total m run depth := by
  induction depth with
  | zero =>
    intro st scope node k h
    obtain ⟨st', result, hn⟩ := h.ends
    cases hn
  | succ depth ih => exact fun st scope node k h => ends_value ih h

/-! ## Runs -/

/-- The world without its log. -/
def World.unlogged (w : World) : World := { w with log := {} }

theorem State.iterate_execute_erase (n : Nat) (s : State) :
    iterate execute n s.erase = (iterate execute n s).erase := by
  induction n generalizing s with
  | zero => rfl
  | succ n ih =>
    have herase := s.execute_erase
    cases h : s.execute with
    | running s' =>
      rw [h] at herase
      rw [iterate_succ_running h, iterate_succ_running herase, ih]
    | finished st result =>
      rw [h] at herase
      rw [iterate_succ_finished h, iterate_succ_finished herase]
      rfl

namespace Store

variable {node : Node} {scope : ScopeId} {result : Except Error Value}

/-- What the direct evaluator says of a world holds of the world that the machine leaves, except for
its log, to which the end of a run writes. -/
theorem finishes_unlogged (m : Nat) {depth : Nat}
    (h : Direct.evaluate depth scope node st.world = some (result, w)) :
    ∃ n st', State.iterate State.execute n (st.start m node scope) = .finished st' result ∧
      st'.world.unlogged = w.unlogged := by
  have hfollows : Follows m (st.beginRun m).2 [] (.evaluate node scope)
      (Direct.evaluate depth scope node) := follows_evaluate depth scope node
  obtain ⟨st₁, harr, rfl, -⟩ := hfollows (st.beginRun m).1 (.final (st.beginRun m).2.id) _ h
  have hworld : ∀ failure,
      (st₁.endRun (st.beginRun m).2 failure).world.unlogged = st₁.world.unlogged :=
    fun failure => congrArg Store.world (st₁.erase_endRun (st.beginRun m).2 failure)
  cases result with
  | ok v =>
    obtain ⟨n, hn⟩ := harr.trans (State.arrives_execute _)
    refine ⟨n, st₁.endRun (st.beginRun m).2 none, hn.trans ?_, hworld none⟩
    show State.deliver _ _ _ _ _ = _
    rw [State.deliver, if_pos rfl]
    rfl
  | error e =>
    obtain ⟨n, hn⟩ := harr
    exact ⟨n, st₁.endRun (st.beginRun m).2 (some e), hn, hworld (some e)⟩

theorem finishes_of_evaluate (m : Nat) {depth : Nat}
    (h : Direct.evaluate depth scope node st.world = some (result, w)) :
    ∃ n st', State.iterate State.execute n (st.start m node scope) = .finished st' result ∧
      st'.world.heap = w.heap ∧ st'.world.output = w.output := by
  obtain ⟨n, st', hn, hworld⟩ := finishes_unlogged m h
  have hheap : st'.world.unlogged.heap = w.unlogged.heap := by rw [hworld]
  have houtput : st'.world.unlogged.output = w.unlogged.output := by rw [hworld]
  exact ⟨n, st', hn, hheap, houtput⟩

theorem evaluate_of_finishes (hs : st.Only Action.Primitive) {n : Nat} {st' : Store}
    (h : State.iterate State.execute n (st.start m node scope) = .finished st' result) :
    (Direct.evaluate n scope node).Ends st.world := by
  have hhalts : Halts m (st.beginRun m).2 n (st.beginRun m).1
      (.evaluate node scope (.final (st.beginRun m).2.id)) :=
    ⟨only_start hs m node scope, st', result, h⟩
  exact total m _ n (st.beginRun m).1 _ _ _ hhalts

/-- The machine refines the direct evaluator: it ends if and only if the direct evaluator does,
with the same result, after the same output and with the same scopes. -/
theorem runWithin_iff_evaluate (hs : st.Only Action.Primitive) (hm : m < st.machines.size)
    (hcanceled : st.world.canceled = none) {budget : Nat} (hb : 1 ≤ budget) (node : Node)
    (scope : ScopeId) (result : Except Error Value) (heap : Heap) (output : Output) :
    (∃ n st', (st.configure m budget 0).runWithin n m node scope = some (st', result) ∧
      st'.world.heap = heap ∧ st'.world.output = output) ↔
    ∃ depth w, Direct.evaluate depth scope node st.world = some (result, w) ∧ w.heap = heap ∧
      w.output = output := by
  have hfree := unlimited_start hs hm hcanceled hb node scope
  have hc := Action.primitive_confined m
  constructor
  · rintro ⟨n, st', hn, rfl, rfl⟩
    obtain ⟨j, hj, -⟩ := (hfree.runWithin_iff hc).1 ⟨n, st', hn, rfl, rfl⟩
    rw [start_configure_erase, State.iterate_execute_erase] at hj
    cases hi : State.iterate State.execute j (st.start m node scope) with
    | running s =>
      rw [hi] at hj
      cases hj
    | finished st₁ result₁ =>
      rw [hi] at hj
      obtain ⟨herase, rfl⟩ := Progress.finished.inj hj
      obtain ⟨⟨result₂, w⟩, hw⟩ := evaluate_of_finishes hs hi
      obtain ⟨i, st₂, hi₂, hheap, houtput⟩ := finishes_of_evaluate m hw
      obtain ⟨rfl, rfl⟩ := State.iterate_finished_unique hi hi₂
      refine ⟨j, w, hw, ?_, ?_⟩
      · exact hheap.symm.trans (congrArg (·.world.heap) herase)
      · exact houtput.symm.trans (congrArg (·.world.output) herase)
  · rintro ⟨depth, w, hw, rfl, rfl⟩
    obtain ⟨j, st₁, hj, hheap, houtput⟩ := finishes_of_evaluate m hw
    have hend := State.iterate_execute_erase j (st.start m node scope)
    rw [hj] at hend
    obtain ⟨n, st', hn, herase, -⟩ := (hfree.runWithin_iff hc).2 ⟨j, hend, rfl⟩
    refine ⟨n, st', hn, ?_, ?_⟩
    · exact (congrArg (·.world.heap) herase).trans hheap
    · exact (congrArg (·.world.output) herase).trans houtput

/-- Calls a function that writes its argument. -/
def callWriter : Node :=
  .call Pos.none
    (.lambda Pos.none none [bytes "x"]
      (.call Pos.none (.identifier Pos.none (bytes "print"))
        [.identifier Pos.none (bytes "x")]))
    [.string Pos.none (bytes "hi")]

/-- What the machine writes with a budget of two steps, the direct evaluator writes. -/
theorem evaluate_callWriter :
    ∃ depth result w, Direct.evaluate depth 0 callWriter (ofBuiltins .silent []).world =
      some (result, w) ∧ w.output.chunks = [bytes "hi\n"] := by
  have honly : (ofBuiltins .silent []).Only Action.Primitive :=
    ofBuiltins_only ⟨trivial, trivial⟩ (by simp) fun _ h => h.elim
  have hbudget : 1 ≤ 2 := by decide
  have hend : (((ofBuiltins .silent []).configure 0 2 0).runWithin 60 0 callWriter 0).any
      (fun x => x.1.world.output.chunks == [bytes "hi\n"]) = true := by
    decide +kernel
  obtain ⟨⟨st, result⟩, h, hx⟩ := Option.any_eq_true _ _ |>.1 hend
  obtain ⟨depth, w, hw, -, houtput⟩ := (runWithin_iff_evaluate honly (show 0 < 1 by decide) rfl
    hbudget callWriter 0 result _ _).1 ⟨60, st, h, rfl, rfl⟩
  refine ⟨depth, result, w, hw, ?_⟩
  rw [houtput]
  exact beq_iff_eq.1 hx

end Store

end Mycel
