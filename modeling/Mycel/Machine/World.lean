import Mycel.Heap
import Mycel.Log

/-!
# The world of a program

What a program can see and change: the scopes, what it has written, what the host wants of it.
-/

namespace Mycel

/-- Where a program writes. -/
structure Output where
  /-- What has been written, the newest first. -/
  chunks : List Text := []
  /-- How many more writes succeed; without a number, all of them. -/
  room : Option Nat := none
  /-- Why a write fails. -/
  reason : Text := bytes "broken pipe"

namespace Output

/-- An output whose every write fails. -/
def broken : Output := { room := some 0 }

/-- Writes a text, if that is still possible. -/
def write? (o : Output) (t : Text) : Option Output :=
  match o.room with
  | none => some { o with chunks := t :: o.chunks }
  | some 0 => none
  | some (n + 1) => some { o with chunks := t :: o.chunks, room := some n }

/-- Everything that has been written. -/
def text (o : Output) : Text := o.chunks.reverse.flatten

end Output

/-! ## Hosts

A host can have builtins of its own. It is told when one of them is called, and says what the
machine has to do next. It uses the machine by tail calls, of a callable or of a continuation that
it was given before, and by runs of its own, whose results it gets back.
-/

/-- A continuation that a host was given, and the machine that made it. -/
structure Captured where
  machine : Nat
  continuation : Continuation

/-- What a host is told. -/
inductive Notice where
  /-- One of its builtins was called. -/
  | called (number : Nat) (args : List Value) (k : Captured)
  /-- A callable that it applied has a value. -/
  | applied (number : Nat) (value : Value)
  /-- A run that it started has ended. -/
  | ended (number : Nat) (result : Except Error Value)

/-- What a host wants next. The numbers are for itself, to know what it is told later. -/
inductive Demand where
  /-- Nothing: whoever waits for a value waits in vain. -/
  | drop
  | fail (error : Error)
  /-- To give a value to a continuation. -/
  | resume (k : Captured) (value : Value)
  /-- To apply a value to arguments. -/
  | apply (function : Value) (args : List Value) (number : Nat)
  /-- To run a node on the same machine. -/
  | run (node : Node) (scope : ScopeId) (number : Nat)

/-- What a host sees when it is told something. -/
structure Encounter where
  notice : Notice
  heap : Heap
  output : Output
  fresh : Nat

/-- What a host makes of it. -/
structure Reaction where
  heap : Heap
  output : Output
  fresh : Nat
  demand : Demand

/-- A host is what it makes of an encounter after the earlier ones, of which the newest is first. -/
structure HostProgram where
  react : Encounter → List Encounter → Reaction

/-- The host without builtins. -/
def HostProgram.silent : HostProgram := ⟨fun e _ => ⟨e.heap, e.output, e.fresh, .drop⟩⟩

/-! ## Worlds -/

/-- The scopes, the output and the host's side of an evaluation. -/
structure World where
  heap : Heap := Heap.empty
  output : Output := {}
  log : Log := {}
  /-- Why the evaluation has to stop, once it has to. -/
  canceled : Option Text := none
  /-- How often the counting builtin was called. -/
  counter : Nat := 0
  /-- The next identity that no callable has yet. -/
  fresh : Nat := 0
  host : HostProgram := HostProgram.silent
  /-- What the host has been told, the newest first. -/
  encounters : List Encounter := []

namespace World

/-- The builtins of every global scope. -/
def primitives : List (String × Action) := [("print", .print), ("println", .println)]

/-- The builtins that a host can add. -/
def hostBuiltins : List (String × Action) :=
  [("halt", .halt), ("count", .count), ("stop", .stop), ("fail", .fail), ("apply", .apply),
    ("twice", .twice), ("inner", .inner false), ("callcc", .callcc)]

/-- Adds a scope without a parent. -/
def root (w : World) : World × ScopeId :=
  let s := w.heap.next
  ({ w with heap := w.heap.root }, s)

/-- Binds a name in a scope. -/
def define (w : World) (s : ScopeId) (name : Text) (v : Value) : World :=
  { w with heap := w.heap.define s name v }

/-- Makes a builtin, and binds its name to it in a scope. -/
def addBuiltin (s : ScopeId) (w : World) (b : String × Action) : World :=
  let v := Value.builtin w.fresh (bytes b.1) b.2
  { w with heap := w.heap.define s (bytes b.1) v, fresh := w.fresh + 1 }

/-- Adds builtins to a scope. -/
def addBuiltins (w : World) (s : ScopeId) (bs : List (String × Action)) : World :=
  bs.foldl (addBuiltin s) w

/-- Adds a global scope. -/
def globals (w : World) : World × ScopeId :=
  let (w, s) := w.root
  (w.addBuiltins s primitives, s)

/-- Tells the host something. -/
def tell (w : World) (notice : Notice) : World × Demand :=
  let e : Encounter := ⟨notice, w.heap, w.output, w.fresh⟩
  let r := w.host.react e w.encounters
  ({ w with heap := r.heap, output := r.output, fresh := r.fresh, encounters := e :: w.encounters },
    r.demand)

/-- Adds a scope inside another one that binds one name. -/
def bindIn (w : World) (s : ScopeId) (name : Text) (v : Value) : World × ScopeId :=
  let t := w.heap.next
  ({ w with heap := (w.heap.extend s).define t name v }, t)

/-- Makes the closure of a lambda in a scope. A named one sees itself, in a scope of its own. -/
def makeClosure (w : World) (s : ScopeId) (name : Option Text) (params : List Text) (body : Node) :
    World × Value :=
  let id := w.fresh
  let w := { w with fresh := id + 1 }
  match name with
  | none => (w, .closure ⟨id, none, params, body, s⟩)
  | some n =>
    let v := Value.closure ⟨id, some n, params, body, w.heap.next⟩
    ((w.bindIn s n v).1, v)

/-- Binds parameters to arguments in a scope. Missing arguments are false and extra ones are
ignored. -/
def bindParams (s : ScopeId) : World → List Text → List Value → World
  | w, [], _ => w
  | w, p :: ps, [] => bindParams s (w.define s p (.bool false)) ps []
  | w, p :: ps, v :: vs => bindParams s (w.define s p v) ps vs

/-- Adds the scope of a call to a closure. -/
def enter (w : World) (c : Closure) (args : List Value) : World × ScopeId :=
  let s := w.heap.next
  (bindParams s { w with heap := w.heap.extend c.scope } c.params args, s)

end World

end Mycel
