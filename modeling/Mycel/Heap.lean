import Mycel.Value.Basic

/-!
# Scopes

A scope binds names to values and may have a parent, where names are looked up that it does not
bind itself. Scopes are shared: closures keep theirs for as long as they exist. All scopes live in
a heap, where a parent stands before its children.
-/

namespace Mycel

/-- Names with their values, and the scope around them. -/
structure Frame where
  parent : Option ScopeId
  bindings : List (Text × Value)

namespace Frame

/-- The value of a name in this frame. -/
def get? (f : Frame) (name : Text) : Option Value :=
  (f.bindings.find? fun (n, _) => n == name).map (·.2)

/-- Whether this frame binds a name. -/
def binds (f : Frame) (name : Text) : Bool := f.bindings.any fun (n, _) => n == name

/-- The bindings with a name bound to a value. -/
def put (name : Text) (v : Value) : List (Text × Value) → List (Text × Value)
  | [] => [(name, v)]
  | (n, w) :: rest => if n == name then (n, v) :: rest else (n, w) :: put name v rest

/-- The frame with a name bound to a value. -/
def insert (f : Frame) (name : Text) (v : Value) : Frame :=
  { f with bindings := put name v f.bindings }

end Frame

/-- All scopes. -/
structure Heap where
  frames : Array Frame

namespace Heap

/-- No scopes. -/
def empty : Heap := ⟨#[]⟩

/-- The scope that the next new one will be. -/
def next (h : Heap) : ScopeId := h.frames.size

/-- Adds a scope without a parent. -/
def root (h : Heap) : Heap := ⟨h.frames.push ⟨none, []⟩⟩

/-- Adds a scope inside another one. -/
def extend (h : Heap) (parent : ScopeId) : Heap := ⟨h.frames.push ⟨some parent, []⟩⟩

/-- The scope around a scope. -/
def parent? (h : Heap) (s : ScopeId) : Option ScopeId := h.frames[s]?.bind (·.parent)

/-- The nearest scope that binds a name, among `n` scopes from `s` outward. -/
def lookupWithin (h : Heap) (name : Text) : Nat → ScopeId → Option ScopeId
  | 0, _ => none
  | n + 1, s =>
    match h.frames[s]? with
    | none => none
    | some f =>
      if f.binds name then some s
      else match f.parent with
        | none => none
        | some p => h.lookupWithin name n p

/-- The nearest scope that binds a name. Since a parent stands before its children, there are at
most `s + 1` scopes to look at. -/
def lookup (h : Heap) (s : ScopeId) (name : Text) : Option ScopeId := h.lookupWithin name (s + 1) s

/-- The value of a name as seen from a scope. -/
def get? (h : Heap) (s : ScopeId) (name : Text) : Option Value :=
  match h.lookup s name with
  | none => none
  | some t => h.frames[t]?.bind (·.get? name)

/-- Binds a name in a scope, whatever the scopes around it say. -/
def define (h : Heap) (s : ScopeId) (name : Text) (v : Value) : Heap :=
  ⟨h.frames.modify s (·.insert name v)⟩

/-- Where an assignment writes: to the nearest scope that binds the name, or to the scope itself if
it has no parent. -/
def target? (h : Heap) (s : ScopeId) (name : Text) : Option ScopeId :=
  match h.lookup s name with
  | some t => some t
  | none => if (h.parent? s).isNone then some s else none

/-- Gives a bound name a new value. A name that is bound nowhere is refused, except in a scope
without a parent, where it is bound. -/
def set? (h : Heap) (s : ScopeId) (name : Text) (v : Value) : Option Heap :=
  match h.target? s name with
  | some t => some (h.define t name v)
  | none => none

/-- The names that a scope binds itself, in bytewise order. -/
def names (h : Heap) (s : ScopeId) : List Text :=
  match h.frames[s]? with
  | some f => Text.sort (f.bindings.map (·.1))
  | none => []

end Heap

end Mycel
