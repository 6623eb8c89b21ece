import Mycel.Yaml.Block
import Mycel.Yaml.Property
import Mycel.Yaml.Scalar

/-!
# The supply of YAML tokens

Tokens are found one after another, and given out a little later: only the colon after a key shows
that it is one, and then the tokens that open a mapping have to go in front of it. A supply
therefore keeps the places where a key may have begun, one for every flow collection that is open
and one for the block around them. A key has to be on one line, and its colon within 1024
characters. Columns of block collections are kept as indentations; a line to the left of one closes
it.
-/

namespace Mycel.Yaml

/-- A place where a key may have begun. -/
structure KeyStart where
  isPossible : Bool := false
  /-- Whether nothing but a key can be here. -/
  isRequired : Bool := false
  /-- Whether the token of the key is held back as long as it may be a key. -/
  isAwaited : Bool := false
  /-- The number of the token with which the key begins. -/
  number : Nat := 0
  index : Nat := 0
  line : Nat := 0
  column : Nat := 0

/-- Tokens of a text, as they are found and given out. -/
structure Supply where
  cursor : Cursor
  /-- More than the number of characters in the text. -/
  bound : Nat
  /-- The tokens that are found and not given out. -/
  ready : List Token := []
  /-- The number of tokens given out. -/
  given : Nat := 0
  /-- Where keys may have begun, the innermost first. -/
  keys : List KeyStart := [{}]
  /-- The number of open flow collections. -/
  flowDepth : Nat := 0
  /-- Whether a key may begin here. -/
  allowsKey : Bool := true
  /-- The column of the innermost block collection. -/
  indent : Int := -1
  /-- The columns of those around it. -/
  indents : List Int := []

namespace Supply

/-- The supply of a text's characters, of which some are taken in at first. -/
def ofCharacters (cs : List Char) (taken : Nat) : Supply :=
  { cursor := .ofCharacters cs taken, bound := cs.length + 4 }

/-- How deep collections may be in one another. -/
def depthLimit : Nat := 10000

/-- How far the colon may be from the start of its key. -/
def keyReach : Nat := 1024

/-- Whether a flow collection is open. -/
def inFlow (s : Supply) : Bool := s.flowDepth > 0

/-- The number of the next token. -/
def nextNumber (s : Supply) : Nat := s.given + s.ready.length

/-- The supply at another place. -/
def moveTo (s : Supply) (c : Cursor) : Supply := { s with cursor := c }

/-- One more token. -/
def push (s : Supply) (t : Token) : Supply := { s with ready := s.ready ++ [t] }

/-- One more token in front of the one with a number. -/
def insert (s : Supply) (number : Nat) (t : Token) : Supply :=
  if number < s.given then s.push t
  else
    let n := number - s.given
    { s with ready := s.ready.take n ++ t :: s.ready.drop n }

/-! ### Keys -/

/-- Whether a key can still go on at the cursor. There is no supply any more if it has to and
cannot. -/
def isOpen? (s : Supply) (k : KeyStart) : Option Bool :=
  if !k.isPossible then some false
  else if k.line < s.cursor.line || k.index + keyReach < s.cursor.index then
    if k.isRequired then none else some false
  else some true

/-- Gives up the innermost key, unless there has to be one. -/
def dropKey? (s : Supply) : Option Supply :=
  match s.keys with
  | [] => some s
  | k :: ks =>
    if k.isPossible && k.isRequired then none
    else some { s with keys := { k with isPossible := false, isAwaited := false } :: ks }

/-- Notes that a key may begin here. At the column of the block around it, it has to. -/
def startKey? (s : Supply) : Option Supply := do
  if !s.allowsKey then return s
  let s ← s.dropKey?
  let k : KeyStart :=
    { isPossible := true
      isRequired := !s.inFlow && s.indent == s.cursor.column
      isAwaited := true
      number := s.nextNumber
      index := s.cursor.index
      line := s.cursor.line
      column := s.cursor.column }
  return { s with keys := k :: s.keys.drop 1 }

/-! ### Indentation -/

/-- Opens a block collection at a column, if it is to the right of the one around it. The token goes
in front of the one with the number. -/
def roll? (s : Supply) (column number : Nat) (t : Token) : Option Supply :=
  if s.inFlow || s.indent ≥ column then some s
  else if s.indents.length ≥ depthLimit then none
  else some ({ s with indent := column, indents := s.indent :: s.indents }.insert number t)

/-- Closes the block collections to the right of a column. -/
def unrollFrom (column : Int) : List Int → Supply → Supply
  | [], s => s
  | outer :: rest, s =>
    if s.indent > column then
      unrollFrom column rest ({ s with indent := outer, indents := rest }.push .blockEnd)
    else s

/-- Closes the block collections to the right of a column, outside of flow collections. -/
def unroll (s : Supply) (column : Int) : Supply :=
  if s.inFlow then s else unrollFrom column s.indents s

/-! ### Finding tokens -/

/-- The first place that says something. A new line may begin with a key. The second argument bounds
the number of lines. -/
def skipGaps : Nat → Supply → Supply
  | 0, s => s
  | n + 1, s =>
    let tabs := s.inFlow || !s.allowsKey
    let c := s.cursor.skipMark.skipWhile fun ch => ch == ' ' || (tabs && ch == '\t')
    let c := if c.isAt '#' then c.skipComments s.bound else c
    match c.takeBreak? with
    | some (_, c) => skipGaps n { s with cursor := c, allowsKey := s.allowsKey || !s.inFlow }
    | none => s.moveTo c

/-- A token that ends all that is open. -/
def closing? (s : Supply) (t : Token) (c : Cursor) : Option Supply := do
  let s ← (s.unroll (-1)).dropKey?
  return ({ s with cursor := c, allowsKey := false }.push t)

/-- The end of the text, which begins a new line. -/
def textEnd? (s : Supply) : Option Supply :=
  let c := s.cursor
  let c := if c.column = 0 then c else { c with column := 0, line := c.line + 1 }
  (s.moveTo c).closing? .textEnd c

/-- The start of a flow collection, which may be a key. -/
def flowStart? (s : Supply) (t : Token) : Option Supply := do
  let number := s.nextNumber
  let s ← s.startKey?
  if s.flowDepth ≥ depthLimit then none
  return ({ s with
    keys := { number } :: s.keys
    flowDepth := s.flowDepth + 1
    allowsKey := true
    cursor := s.cursor.skip 1 }.push t)

/-- The keys around a flow collection that ends. An empty collection is not awaited any more. -/
def outerKeys : List KeyStart → List KeyStart
  | inner :: outer :: rest =>
    (if inner.number = outer.number then { outer with isAwaited := false } else outer) :: rest
  | ks => ks

/-- The end of a flow collection. -/
def flowEnd? (s : Supply) (t : Token) : Option Supply := do
  let s ← s.dropKey?
  return ({ s with
    keys := if s.inFlow then outerKeys s.keys else s.keys
    flowDepth := s.flowDepth - 1
    allowsKey := false
    cursor := s.cursor.skip 1 }.push t)

/-- The comma in a flow collection. -/
def comma? (s : Supply) : Option Supply := do
  let s ← s.dropKey?
  return ({ s with allowsKey := true, cursor := s.cursor.skip 1 }.push .comma)

/-- A mark that begins an entry of a block collection of some kind, where a key may begin. -/
def blockMark? (s : Supply) (collection t : Token) (allowsKey : Bool) : Option Supply := do
  if !s.inFlow && !s.allowsKey then none
  let s ← s.roll? s.cursor.column s.nextNumber collection
  let s ← s.dropKey?
  return ({ s with allowsKey, cursor := s.cursor.skip 1 }.push t)

/-- The colon in front of a value. The key before it becomes known as one; without it, the value is
that of a key with a mark of its own, or of none. -/
def colon? (s : Supply) : Option Supply := do
  let k := s.keys.headD {}
  if ← s.isOpen? k then
    let s ← (s.insert k.number .key).roll? k.column k.number .blockMapping
    return ({ s with
      keys := { k with isPossible := false, isAwaited := false } :: s.keys.drop 1
      allowsKey := false
      cursor := s.cursor.skip 1 }.push .value)
  else
    if !s.inFlow && !s.allowsKey then none
    let s ← s.roll? s.cursor.column s.nextNumber .blockMapping
    return ({ s with allowsKey := !s.inFlow, cursor := s.cursor.skip 1 }.push .value)

/-- A token that may begin a key. -/
def keyed? (s : Supply) (found : Option (Token × Cursor)) : Option Supply := do
  let s ← s.startKey?
  let (t, c) ← found
  return ({ s with allowsKey := false, cursor := c }.push t)

/-- A quoted scalar. -/
def quotedScalar? (s : Supply) (mark : Char) : Option Supply :=
  s.keyed? ((quoted? mark s.bound (s.cursor.skip 1)).map fun (t, c) =>
    (.scalar false (encode t), c))

/-- A plain scalar. A key may begin on the line after it. -/
def plainScalar? (s : Supply) : Option Supply := do
  let p ← plainFrom? s.inFlow (s.indent + 1) s.bound {} s.cursor
  let s ← s.keyed? (some (.scalar true (encode p.text), p.cursor))
  return { s with allowsKey := p.endsLine }

/-- A block scalar, which cannot be a key. -/
def blockScalar? (s : Supply) (isLiteral : Bool) : Option Supply := do
  let s ← s.dropKey?
  let (t, c) ← Block.read? isLiteral s.indent s.bound (s.cursor.skip 1)
  return ({ s with allowsKey := true, cursor := c }.push (.scalar false (encode t)))

/-- The token that begins with a character, in the middle of a document. -/
def token? (s : Supply) (ch : Char) (rest : List Char) : Option Supply :=
  let next := s.cursor.skip 1
  if ch == '[' then s.flowStart? .flowSequence
  else if ch == '\x7b' then s.flowStart? .flowMapping
  else if ch == ']' then s.flowEnd? .flowSequenceEnd
  else if ch == '\x7d' then s.flowEnd? .flowMappingEnd
  else if ch == ',' then s.comma?
  else if ch == '-' && atGap rest then s.blockMark? .blockSequence .item true
  else if ch == '?' && (s.inFlow || atGap rest) then s.blockMark? .blockMapping .key (!s.inFlow)
  else if ch == ':' && (s.inFlow || atGap rest) then s.colon?
  else if ch == '*' then
    s.keyed? ((Property.anchor? next).map fun (name, c) => (.reference name, c))
  else if ch == '&' then s.keyed? ((Property.anchor? next).map fun (name, c) => (.anchor name, c))
  else if ch == '!' then s.keyed? (Property.tag? s.cursor)
  else if ch == '|' && !s.inFlow then s.blockScalar? true
  else if ch == '>' && !s.inFlow then s.blockScalar? false
  else if ch == apostrophe || ch == quote then s.quotedScalar? ch
  else if startsPlain s.inFlow (ch :: rest) then s.plainScalar?
  else none

/-- Finds the next token. A comment may follow it on its line, unless it is the dash of an item. -/
def find? (s : Supply) : Option Supply :=
  let s := s.skipGaps s.bound
  let s := s.unroll s.cursor.column
  let c := s.cursor.ask Cursor.markWidth
  let s := s.moveTo c
  match c.rest with
  | [] => s.textEnd?
  | ch :: rest =>
    if c.column = 0 && ch == '%' then do
      let (t, c) ← Property.directive? (c.skip 1)
      s.closing? t c
    else if c.isAtMark '-' then s.closing? .documentStart (c.skip 3)
    else if c.isAtMark '.' then s.closing? .documentEnd (c.skip 3)
    else do
      let s ← s.token? ch rest
      if s.ready.getLast? = some .item then return s
      return s.moveTo s.cursor.skipLineComment

/-! ### Giving out tokens -/

/-- The number of tokens that are found before one is given out. -/
def lookahead : Nat := 3

/-- Finds tokens until the next one can be given out: enough are ready, and it begins nothing that
may still become a key. The first argument bounds their number. -/
def fillWithin : Nat → Supply → Option Supply
  | 0, _ => none
  | n + 1, s =>
    if s.ready.length < lookahead then s.find?.bind (fillWithin n)
    else match s.keys.find? fun k => k.isAwaited && k.number == s.given with
      | none => some s
      | some k => do
        if ← s.isOpen? k then fillWithin n (← s.find?) else return s

/-- The next token. -/
def peek? (s : Supply) : Option (Token × Supply) := do
  let s ← s.fillWithin s.bound
  return (← s.ready.head?, s)

/-- Gives out a token that is ready. -/
def give (s : Supply) : Supply := { s with ready := s.ready.drop 1, given := s.given + 1 }

end Supply

end Mycel.Yaml
