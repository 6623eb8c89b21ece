import Mycel.Yaml.Basic
import Mycel.Yaml.Supply

/-!
# Reading YAML

The first document of a text is read, and no more tokens than that takes: what follows the document
is looked at only as far as tokens are found ahead.
-/

namespace Mycel.Yaml

/-- What is known while a document is read. -/
structure Progress where
  supply : Supply
  /-- What the handles of tags stand for. -/
  handles : List (Text × Text) := []
  /-- The names of the anchors so far, the newest first. -/
  names : List Text := []
  /-- The finished nodes at anchors. -/
  anchored : List (Nat × Yaml) := []

/-- Steps in reading a document, which may fail. -/
abbrev Read := StateT Progress Option

namespace Read

/-- The next token. -/
def peek : Read Token := do
  let r ← get
  match r.supply.peek? with
  | some (t, supply) =>
    set { r with supply }
    return t
  | none => failure

/-- Goes on to the next token. -/
def advance : Read Unit := modify fun r => { r with supply := r.supply.give }

/-- Takes a token that has to be next. -/
def expect (t : Token) : Read Unit := do
  if (← peek) = t then advance else failure

/-- The handles that need no directive. -/
def commonHandles : List (Text × Text) :=
  [(bytes "!", bytes "!"), (bytes "!!", bytes "tag:yaml.org,2002:")]

/-- Reads directives. There is one version, and a handle has one meaning. -/
def directives : Nat → Bool → Read Unit
  | 0, _ => failure
  | n + 1, hasVersion => do
    match ← peek with
    | .version major minor =>
      if hasVersion || major ≠ 1 || minor ≠ 1 then failure
      advance
      directives n true
    | .tagHandle handle meaning =>
      let r ← get
      if r.handles.any fun (h, _) => h == handle then failure
      set { r with handles := r.handles ++ [(handle, meaning)] }
      advance
      directives n hasVersion
    | _ => return

/-- The tags of the common schema, as they are written in full. -/
def commonTag : Text := bytes "tag:yaml.org,2002:"

/-- The tag with a handle and a suffix, in its short form. A lone exclamation mark is no tag. -/
def tag (handle suffix : Text) : Read (Option Text) := do
  let r ← get
  let known := r.handles ++ commonHandles
  let tag ← if handle.isEmpty then pure suffix
    else match known.find? fun (h, _) => h == handle with
      | some (_, meaning) => pure (meaning ++ suffix)
      | none => failure
  if tag == bytes "!" then return none
  return some (match Text.dropStart? commonTag tag with
    | some short => bytes "!!" ++ short
    | none => tag)

/-- What stands in front of a node. -/
structure Properties where
  anchor : Option Text := none
  tag : Option Text := none
  /-- Whether anything stands there. -/
  isEmpty : Bool := true

/-- Reads an anchor, if one is next. -/
def anchor : Read (Option Text) := do
  match ← peek with
  | .anchor name => advance; return some name
  | _ => return none

/-- Reads an anchor and a tag, in either order, as far as they are there. -/
def properties : Read Properties := do
  let first ← anchor
  match ← peek with
  | .tag handle suffix =>
    advance
    let name ← if first.isSome then pure first else anchor
    return { anchor := name, tag := ← tag handle suffix, isEmpty := false }
  | _ => return { anchor := first, isEmpty := first.isNone }

/-- A reference to the newest anchor with a name. -/
def referTo (name : Text) : Read Yaml := do
  let names := (← get).names
  match names.idxOf? name with
  | some i => return .reference name (names.length - 1 - i)
  | none => failure

/-- Numbers an anchor. -/
def declare (name : Text) : Read Nat := do
  let r ← get
  set { r with names := name :: r.names }
  return r.names.length

/-- Notes the node at an anchor. -/
def note (number : Nat) (y : Yaml) : Read Unit :=
  modify fun r => { r with anchored := (number, y) :: r.anchored }

mutual

/-- A node. Block collections are read only where `inBlock` says so, and a sequence without an
indentation of its own only where `looseItems` does. The first argument bounds the depth and the
length of what is read. -/
def node : Nat → Bool → Bool → Read Yaml
  | 0, _, _ => failure
  | n + 1, inBlock, looseItems => do
    match ← peek with
    | .reference name => advance; referTo name
    | _ =>
      let p ← properties
      let number ← p.anchor.mapM declare
      let y ← content n inBlock looseItems p
      match number with
      | some number => note number y
      | none => pure ()
      return y

/-- A node after its properties. Properties alone stand before a node where nothing is written. -/
def content : Nat → Bool → Bool → Properties → Read Yaml
  | 0, _, _, _ => failure
  | n + 1, inBlock, looseItems, p => do
    let absent : Read Yaml := if p.isEmpty then failure else pure (.scalar true p.tag [])
    match ← peek with
    | .scalar isPlain text => advance; return .scalar isPlain p.tag text
    | .flowSequence => advance; return .sequence (← flowItems n true)
    | .flowMapping => advance; return .mapping (← flowEntries n true)
    | .item => if looseItems then return .sequence (← loose n) else absent
    | .blockSequence => if inBlock then advance; return .sequence (← items n) else absent
    | .blockMapping => if inBlock then advance; return .mapping (← entries n) else absent
    | _ => absent

/-- A node, or nothing before some tokens. -/
def nodeUnless : Nat → List Token → Bool → Bool → Read Yaml
  | 0, _, _, _ => failure
  | n + 1, stops, inBlock, looseItems => do
    if stops.contains (← peek) then return nothing else node n inBlock looseItems

/-- The value after a colon, or nothing without one. -/
def value : Nat → List Token → Bool → Read Yaml
  | 0, _, _ => failure
  | n + 1, stops, inBlock => do
    if (← peek) = .value then advance; nodeUnless n stops inBlock inBlock else return nothing

/-- The items of a flow sequence up to its end. -/
def flowItems : Nat → Bool → Read (List Yaml)
  | 0, _ => failure
  | n + 1, isFirst => do
    if (← peek) = .flowSequenceEnd then advance; return []
    if !isFirst then expect .comma
    match ← peek with
    | .flowSequenceEnd => advance; return []
    | .key =>
      advance
      let pair ← flowPair n
      return pair :: (← flowItems n false)
    | _ =>
      let y ← node n false false
      return y :: (← flowItems n false)

/-- A mapping with one entry, as an item of a flow sequence. The token that stands in the way of its
key is passed over. -/
def flowPair : Nat → Read Yaml
  | 0 => failure
  | n + 1 => do
    let stops : List Token := [.comma, .flowSequenceEnd]
    let k ←
      if (.value :: stops).contains (← peek) then advance; pure nothing
      else node n false false
    let v ← value n stops false
    return .mapping [(k, v)]

/-- The entries of a flow mapping up to its end. -/
def flowEntries : Nat → Bool → Read (List (Yaml × Yaml))
  | 0, _ => failure
  | n + 1, isFirst => do
    let stops : List Token := [.comma, .flowMappingEnd]
    if (← peek) = .flowMappingEnd then advance; return []
    if !isFirst then expect .comma
    match ← peek with
    | .flowMappingEnd => advance; return []
    | .key =>
      advance
      let k ← nodeUnless n (.value :: stops) false false
      let v ← value n stops false
      return (k, v) :: (← flowEntries n false)
    | _ =>
      let k ← node n false false
      return (k, nothing) :: (← flowEntries n false)

/-- The items of a block sequence up to its end. -/
def items : Nat → Read (List Yaml)
  | 0 => failure
  | n + 1 => do
    match ← peek with
    | .item =>
      advance
      let y ← nodeUnless n [.item, .blockEnd] true false
      return y :: (← items n)
    | .blockEnd => advance; return []
    | _ => failure

/-- The items of a sequence that has no indentation of its own. -/
def loose : Nat → Read (List Yaml)
  | 0 => failure
  | n + 1 => do
    match ← peek with
    | .item =>
      advance
      let y ← nodeUnless n [.item, .key, .value, .blockEnd] true false
      return y :: (← loose n)
    | _ => return []

/-- The entries of a block mapping up to its end. -/
def entries : Nat → Read (List (Yaml × Yaml))
  | 0 => failure
  | n + 1 => do
    let stops : List Token := [.key, .value, .blockEnd]
    match ← peek with
    | .key =>
      advance
      let k ← nodeUnless n stops true true
      let v ← value n stops true
      return (k, v) :: (← entries n)
    | .blockEnd => advance; return []
    | _ => failure

end

/-- The root of a document after its mark. -/
def root (bound : Nat) : Read Yaml := do
  match ← peek with
  | .version _ _ | .tagHandle _ _ | .documentStart | .documentEnd | .textEnd => return nothing
  | _ => node bound true false

/-- The first document. There has to be a token after it. -/
def document (bound : Nat) : Read Yaml := do
  let y ← match ← peek with
    | .textEnd => pure nothing
    | .version _ _ | .tagHandle _ _ | .documentStart =>
      directives bound false
      expect .documentStart
      root bound
    | _ => node bound true false
  discard peek
  return y

end Read

/-- The document that a text says. -/
def parse? (t : Text) : Option Document := do
  let (cs, taken) ← characters? t
  let bound := 8 * cs.length + 16
  let (root, r) ← (Read.document bound).run { supply := .ofCharacters cs taken }
  return { root, anchored := r.anchored, bound := (cs.length + 1) * (r.names.length + 1) }

end Mycel.Yaml
