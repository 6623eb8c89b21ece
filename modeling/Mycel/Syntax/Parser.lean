import Mycel.Syntax.Node
import Mycel.Token.Stream

/-!
# Parsing

A recursive-descent parser with one token of lookahead: each function takes the tokens to be read
and returns what it parsed with the tokens after it. An expression is a chain of operands with
connectives between them; all connectives associate to the left. An operand is a primary expression
followed by any number of argument lists.

The functions take a bound on the depth of their calls. Each level of nesting takes a token, so a
bound that is linear in the number of tokens is never reached.
-/

namespace Mycel

/-- A whole program. -/
structure Program where
  pos : Pos
  body : List Node
  deriving Inhabited, Repr

/-- A program as a node. -/
def Program.toNode (p : Program) : Node := .program p.pos p.body

namespace Parser

/-- Whether a lexeme ends a list that is closed by `stop`. -/
def endsList (stop : Mark) (l : Lexeme) : Bool := l == .endOfInput || l == .mark stop

/-- Items up to `stop`, which is taken as well, with a separator between neighbours and possibly
after the last one. -/
def delimited {α : Type} (item : Stream → Except Error (α × Stream)) (separator stop : Mark) :
    Nat → Bool → Stream → Except Error (List α × Stream)
  | 0, _, s => .error s.unexpected
  | n + 1, first, s => do
    if endsList stop (← s.peek).lexeme then return ([], ← s.expect (.mark stop))
    let s ← if first then pure s else s.expect (.mark separator)
    if endsList stop (← s.peek).lexeme then return ([], ← s.expect (.mark stop))
    let (x, s) ← item s
    let (xs, s) ← delimited item separator stop n false s
    return (x :: xs, s)

/-- An identifier that is being bound. -/
def name (s : Stream) : Except Error (Text × Stream) := do
  let t ← s.peek
  match t.lexeme with
  | .identifier n => return (n, s.tail)
  | l => throw ((Fault.expecting (bytes "variable name") l.describe).error t.pos)

/-- An identifier, if there is one. -/
def optionalName (s : Stream) : Except Error (Option Text × Stream) := do
  match (← s.peek).lexeme with
  | .identifier n => return (some n, s.tail)
  | _ => return (none, s)

/-- The connective that a lexeme is. -/
def connective? : Lexeme → Option Connective
  | .operator spelling => Connective.ofSpelling? spelling
  | _ => none

/-- The node of two operands with a connective between them. The logical connectives become
conditionals, so that their right operand is only evaluated on demand. -/
def combine (c : Connective) (left right : Node) : Node :=
  match c with
  | .and => .branch left.pos left right .missing
  | .or => .branch left.pos left .missing right
  | .assign => .assign left.pos left right
  | .operator o => .binary left.pos o left right

/-- The node of a block: empty blocks are false, and a single expression stands for itself. -/
def block (pos : Pos) : List Node → Node
  | [] => .bool pos false
  | [e] => e
  | body => .program pos body

/-- The node of a `let`. With a name it calls a lambda of that name on the definitions. -/
def binding (pos : Pos) (name : Option Text) (bindings : List (Text × Node)) (body : Node) : Node :=
  match name with
  | none => .binding pos bindings body
  | some f =>
    .call pos (.lambda pos (some f) (bindings.map (·.1)) body)
      (bindings.map fun (_, d) => if d.isPresent then d else .bool pos false)

mutual

/-- An expression. -/
def expression : Nat → Stream → Except Error (Node × Stream)
  | 0, s => .error s.unexpected
  | n + 1, s => do
    let (node, s) ← operand n s
    let (node, s) ← chain n node 0 s
    calls n node s

/-- The rest of a chain after `left`, as far as its connectives bind tighter than `level`. -/
def chain : Nat → Node → Nat → Stream → Except Error (Node × Stream)
  | 0, _, _, s => .error s.unexpected
  | n + 1, left, level, s => do
    match connective? (← s.peek).lexeme with
    | none => return (left, s)
    | some c =>
      if c.precedence ≤ level then return (left, s)
      let (right, s) ← operand n s.tail
      let (right, s) ← chain n right c.precedence s
      chain n (combine c left right) level s

/-- The argument lists after `callee`. -/
def calls : Nat → Node → Stream → Except Error (Node × Stream)
  | 0, _, s => .error s.unexpected
  | n + 1, callee, s => do
    if (← s.peek).lexeme = .mark .openParen then
      let (args, s) ← delimited (expression n) .comma .closeParen n true s.tail
      calls n (.call callee.pos callee args) s
    else return (callee, s)

/-- A primary expression and the argument lists after it. -/
def operand : Nat → Stream → Except Error (Node × Stream)
  | 0, s => .error s.unexpected
  | n + 1, s => do
    let (node, s) ← primary n s
    calls n node s

/-- A primary expression. -/
def primary : Nat → Stream → Except Error (Node × Stream)
  | 0, s => .error s.unexpected
  | n + 1, s => do
    let t ← s.peek
    match t.lexeme with
    | .mark .openParen =>
      let (node, s) ← expression n s.tail
      return (node, ← s.expect (.mark .closeParen))
    | .mark .openBrace =>
      let (body, s) ← delimited (expression n) .semicolon .closeBrace n true s.tail
      return (block t.pos body, s)
    | .keyword .ifWord => conditional n t.pos s.tail
    | .keyword .trueWord => return (.bool t.pos true, s.tail)
    | .keyword .falseWord => return (.bool t.pos false, s.tail)
    | .keyword .lambdaWord =>
      let (f, s) ← optionalName s.tail
      let s ← s.expect (.mark .openParen)
      let (params, s) ← delimited name .comma .closeParen n true s
      let (body, s) ← expression n s
      return (.lambda t.pos f params body, s)
    | .keyword .letWord =>
      let (f, s) ← optionalName s.tail
      let s ← s.expect (.mark .openParen)
      let (bindings, s) ← delimited (definition n) .comma .closeParen n true s
      let (body, s) ← expression n s
      return (binding t.pos f bindings body, s)
    | .identifier x => return (.identifier t.pos x, s.tail)
    | .number _ x => return (.number t.pos x, s.tail)
    | .string x => return (.string t.pos x, s.tail)
    | _ => throw s.unexpected

/-- What follows an `if` at `pos`. Before a brace, `then` may be left out. -/
def conditional : Nat → Pos → Stream → Except Error (Node × Stream)
  | 0, _, s => .error s.unexpected
  | n + 1, pos, s => do
    let (condition, s) ← expression n s
    let s ← if (← s.peek).lexeme = .mark .openBrace then pure s else s.expect (.keyword .thenWord)
    let (whenTrue, s) ← expression n s
    if (← s.peek).lexeme = .keyword .elseWord then
      let (whenFalse, s) ← expression n s.tail
      return (.branch pos condition whenTrue whenFalse, s)
    else return (.branch pos condition whenTrue .missing, s)

/-- A name that is being bound, and its definition if there is one. -/
def definition : Nat → Stream → Except Error ((Text × Node) × Stream)
  | 0, s => .error s.unexpected
  | n + 1, s => do
    let (x, s) ← name s
    if (← s.peek).lexeme = .operator (bytes "=") then
      let (d, s) ← expression n s.tail
      return ((x, d), s)
    else return ((x, .missing), s)

end

/-- A bound on the depth of calls that is enough for the tokens of `s`. -/
def depth (s : Stream) : Nat := 4 * s.length + 8

/-- Expressions to the end of the input, with semicolons between them. -/
def statements : Nat → Stream → Except Error (List Node)
  | 0, s => .error s.unexpected
  | n + 1, s => do
    if (← s.peek).lexeme = .endOfInput then return []
    let (e, s) ← expression (depth s) s
    if (← s.peek).lexeme = .endOfInput then return [e]
    let s ← s.expect (.mark .semicolon)
    return e :: (← statements n s)

end Parser

/-- The program of a token stream. -/
def Program.ofStream (s : Stream) : Except Error Program := do
  let first ← s.peek
  return ⟨first.pos, ← Parser.statements (s.length + 1) s⟩

/-- The program that a source says. -/
def Program.parse (source : Text) : Except Error Program :=
  Program.ofStream (Stream.ofSource source)

end Mycel
