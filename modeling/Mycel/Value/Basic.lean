import Mycel.Number
import Mycel.Syntax.Node

/-!
# Values and continuations

Values are numbers, strings, booleans and callables. A callable is a closure or a builtin, and has
an identity: two callables are equal only if they are the same one.

What is left to do when a value has been found is a `Continuation`: a chain of pending steps that
ends with the run that wants the value. One builtin, `escape`, holds a continuation, so the two
types are defined together.
-/

namespace Mycel

/-- A scope, by its place in the heap. -/
abbrev ScopeId := Nat

/-- A lambda together with the scope that it was made in. -/
structure Closure where
  /-- The identity of the closure. -/
  id : Nat
  name : Option Text
  params : List Text
  body : Node
  scope : ScopeId
  deriving Inhabited, Repr

mutual

/-- A value of the language. -/
inductive Value where
  | number (x : Float)
  | string (t : Text)
  | bool (b : Bool)
  | closure (c : Closure)
  /-- A builtin, with its identity. -/
  | builtin (id : Nat) (name : Text) (action : Action)

/-- What a builtin does when it is called. -/
inductive Action where
  /-- Writes its argument on a line. -/
  | print
  /-- Writes its argument on a line, and an empty line. -/
  | println
  /-- Ends the current run without a result. -/
  | halt
  /-- Counts its calls. -/
  | count
  /-- Tells the evaluation to stop. -/
  | stop
  /-- Fails with its argument as the message. -/
  | fail
  /-- Applies its first argument to the others. -/
  | apply
  /-- Applies its first argument to its second one, and then to the result. It is a host's builtin
  that takes note of both arguments when it is called. One that looks at its arguments again for the
  second application finds what is in their buffer by then, which may be something else if an
  argument has been resumed in between. -/
  | twice
  /-- Runs its argument as a program of its own on the same machine. The new global scope has the
  host's builtins if `hosted` is set. -/
  | inner (hosted : Bool)
  /-- Applies its argument to the current continuation. -/
  | callcc
  /-- Goes on with a continuation of a machine, and forgets the current one. -/
  | escape (machine : Nat) (continuation : Continuation)
  /-- Belongs to a host that never has it called. -/
  | inert
  /-- Leaves everything to the host, which knows the builtin by a number. -/
  | host (number : Nat)

/-- What is left to do with a value. All is guarded, but for giving it to a run or to the host. -/
inductive Continuation where
  /-- Gives the value to a run as its result. -/
  | final (run : Nat)
  /-- Assigns it to a name. -/
  | assign (pos : Pos) (name : Text) (scope : ScopeId) (next : Continuation)
  /-- Goes on with the right operand. -/
  | left (pos : Pos) (operator : Operator) (right : Node) (scope : ScopeId) (next : Continuation)
  /-- Applies an operator to a left operand and it. -/
  | right (pos : Pos) (operator : Operator) (left : Value) (next : Continuation)
  /-- Chooses a branch. -/
  | branch (whenTrue whenFalse : Node) (scope : ScopeId) (next : Continuation)
  /-- Goes on with the rest of a sequence. -/
  | sequence (rest : List Node) (scope : ScopeId) (next : Continuation)
  /-- Goes on with the arguments of a call to it. -/
  | callee (pos : Pos) (args : List Node) (scope : ScopeId) (next : Continuation)
  /-- Puts it after the first `filled` arguments in a buffer and goes on with the others. -/
  | argument (pos : Pos) (rest : List Node) (scope : ScopeId) (callee : Value)
      (buffer filled : Nat) (next : Continuation)
  /-- Binds it to a name and goes on with the other bindings. -/
  | bind (name : Text) (rest : List (Text × Node)) (body : Node) (scope : ScopeId)
      (next : Continuation)
  /-- Hands it on to where a builtin was called. -/
  | applied (next : Continuation)
  /-- Applies a function to it once more. -/
  | again (function : Value) (next : Continuation)
  /-- Gives it to the host, which knows what it is for by a number. -/
  | hosted (number : Nat)

end

instance : Inhabited Value := ⟨.bool false⟩

instance : Inhabited Continuation := ⟨.final 0⟩

namespace Value

/-- The name of the type of a value. -/
def kind : Value → Text
  | number _ => bytes "number"
  | string _ => bytes "string"
  | bool _ => bytes "bool"
  | closure _ => bytes "lambda"
  | builtin _ _ _ => bytes "builtin"

/-- The text of a value. -/
def inspect : Value → Text
  | number x => Number.text x
  | string t => t
  | bool b => Text.ofBool b
  | closure c =>
    bytes "#<lambda " ++ c.name.getD (bytes "anonymous") ++ bytes "(" ++
      Text.join (bytes ", ") c.params ++ bytes ")>"
  | builtin _ name _ => bytes "#<builtin " ++ name ++ bytes ">"

/-- Every value except false counts as true. -/
def isTruthy : Value → Bool
  | bool b => b
  | _ => true

/-- Numbers, strings and booleans are compared by value and callables by identity. -/
def same : Value → Value → Bool
  | number x, number y => x == y
  | string s, string t => s == t
  | bool a, bool b => a == b
  | closure c, closure d => c.id == d.id
  | builtin i _ _, builtin j _ _ => i == j
  | _, _ => false

end Value

end Mycel
