import Mycel.Text.Basic

/-!
# YAML nodes

A node is a scalar, a collection, or a reference to another node, which has an anchor. Anchors are
numbered in the order in which they are found, so that a name can be used again for another node.
-/

namespace Mycel

/-- A YAML node. -/
inductive Yaml where
  | scalar (isPlain : Bool) (tag : Option Text) (text : Text)
  | sequence (items : List Yaml)
  | mapping (entries : List (Yaml × Yaml))
  /-- The node at the anchor with a number, which is called by a name. -/
  | reference (name : Text) (anchor : Nat)
  deriving Inhabited

namespace Yaml

/-- The node where nothing is written. -/
def nothing : Yaml := scalar true none []

/-- A document: its outermost node, and the nodes at anchors by their numbers. -/
structure Document where
  root : Yaml
  anchored : List (Nat × Yaml) := []
  /-- More than the length of a way through the document that passes no anchor twice. -/
  bound : Nat := 0

/-- The node at the end of a reference. What an anchor stands at is no reference itself. -/
def Document.follow? (d : Document) : Yaml → Option Yaml
  | reference _ anchor => (d.anchored.find? fun (n, _) => n == anchor).map (·.2)
  | y => some y

end Yaml

end Mycel
