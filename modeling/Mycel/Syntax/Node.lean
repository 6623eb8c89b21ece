import Mycel.Position
import Mycel.Syntax.Operator

/-!
# Syntax trees

A program is a tree of nodes. The parser leaves out only what may be left out; a tree that a host
builds can have a part missing anywhere.
-/

namespace Mycel

/-- A node of a syntax tree. -/
inductive Node where
  | number (pos : Pos) (value : Float)
  | string (pos : Pos) (value : Text)
  | bool (pos : Pos) (value : Bool)
  | identifier (pos : Pos) (name : Text)
  /-- An assignment. Only an identifier can be assigned to. -/
  | assign (pos : Pos) (target value : Node)
  | binary (pos : Pos) (operator : Operator) (left right : Node)
  /-- A conditional. Without a first branch it has the value of its condition; without a second
  one it is false. -/
  | branch (pos : Pos) (condition whenTrue whenFalse : Node)
  | lambda (pos : Pos) (name : Option Text) (params : List Text) (body : Node)
  /-- Expressions one after another; the last one gives the value. -/
  | program (pos : Pos) (body : List Node)
  | call (pos : Pos) (callee : Node) (args : List Node)
  /-- Bindings, each in the scope of those before it, and a body in the scope of them all. A
  binding without a definition is false. -/
  | binding (pos : Pos) (bindings : List (Text × Node)) (body : Node)
  /-- Nothing, where a node could be. -/
  | missing
  deriving Inhabited, Repr

namespace Node

/-- The position of a node. -/
def pos : Node → Pos
  | number p _ => p
  | string p _ => p
  | bool p _ => p
  | identifier p _ => p
  | assign p _ _ => p
  | binary p _ _ _ => p
  | branch p _ _ _ => p
  | lambda p _ _ _ => p
  | program p _ => p
  | call p _ _ => p
  | binding p _ _ => p
  | missing => Pos.none

/-- Whether a node is there. -/
def isPresent : Node → Bool
  | missing => false
  | _ => true

end Node

end Mycel
