import Mycel.Position

/-!
# Errors

An error is a chain: each member may have been caused by the next. Members that come from the
language are diagnostics with a code and a position; a host contributes plain messages and messages
wrapped around a cause. `Error.text` is what a user reads.
-/

namespace Mycel

/-- The class of a diagnostic. -/
inductive Code where
  | lex
  | parse
  | undefined
  | type
  | divideByZero
  | unknownOperator
  | notCallable
  | assignTarget
  | stalled
  | canceled
  | bounceLimit
  | input
  /-- A class of a host's own. -/
  | other (name : Text)
  deriving DecidableEq, Inhabited, Repr

namespace Code

/-- The classes of the language. -/
def all : List Code :=
  [lex, parse, undefined, type, divideByZero, unknownOperator, notCallable, assignTarget, stalled,
    canceled, bounceLimit, input]

/-- The name by which users and hosts know a class. -/
def name : Code → Text
  | lex => bytes "LEX_ERROR"
  | parse => bytes "PARSE_ERROR"
  | undefined => bytes "UNDEFINED_VARIABLE"
  | type => bytes "TYPE_ERROR"
  | divideByZero => bytes "DIVIDE_BY_ZERO"
  | unknownOperator => bytes "UNKNOWN_OPERATOR"
  | notCallable => bytes "NOT_CALLABLE"
  | assignTarget => bytes "ASSIGN_TO_NON_IDENTIFIER"
  | stalled => bytes "EVAL_STALLED"
  | canceled => bytes "EVAL_CANCELED"
  | bounceLimit => bytes "BOUNCE_LIMIT"
  | input => bytes "INPUT_ERROR"
  | other n => n

/-- The class with a given name. -/
def ofName (n : Text) : Code := (all.find? fun c => c.name == n).getD (other n)

end Code

/-- A finding of the language about a program. -/
structure Diagnostic where
  code : Code
  message : Text
  pos : Pos := Pos.none
  /-- What would have been accepted, if that can be said. -/
  expected : Text := []
  /-- What was there instead. -/
  found : Text := []
  deriving DecidableEq, Inhabited, Repr

namespace Diagnostic

/-- Class and message, and the position if there is one. -/
def text (d : Diagnostic) : Text :=
  let said := d.code.name ++ bytes ": " ++ d.message
  if d.pos.line > 0 then said ++ bytes " (" ++ d.pos.render ++ bytes ")" else said

end Diagnostic

/-- A chain of errors, the outermost first. -/
inductive Error where
  /-- A message of the host. -/
  | plain (message : Text)
  /-- A message of the host about a cause. -/
  | wrapped (message : Text) (cause : Error)
  /-- A diagnostic without a cause. -/
  | report (diagnostic : Diagnostic)
  /-- A diagnostic with a cause. -/
  | caused (diagnostic : Diagnostic) (cause : Error)
  deriving DecidableEq, Inhabited, Repr

namespace Error

/-- The messages of the chain, outermost first, with colons between them. -/
def text : Error → Text
  | plain message => message
  | wrapped message cause => message ++ bytes ": " ++ cause.text
  | report d => d.text
  | caused d cause => d.text ++ bytes ": " ++ cause.text

/-- The next member of the chain. -/
def cause? : Error → Option Error
  | plain _ => none
  | wrapped _ cause => some cause
  | report _ => none
  | caused _ cause => some cause

/-- The part of the chain that starts with its first diagnostic, and that diagnostic. -/
def first? : Error → Option (Diagnostic × Error)
  | plain _ => none
  | wrapped _ cause => cause.first?
  | report d => some (d, report d)
  | caused d cause => some (d, caused d cause)

/-- The first diagnostic of the chain. -/
def diagnostic? (e : Error) : Option Diagnostic := e.first?.map (·.1)

/-- The class of the first diagnostic. -/
def code? (e : Error) : Option Code := e.diagnostic?.map (·.code)

/-- Whether the first diagnostic is of class `c`. -/
def hasCode (e : Error) (c : Code) : Bool := e.code? == some c

/-- The name of the class of the first diagnostic; empty if there is none. -/
def codeName (e : Error) : Text :=
  match e.code? with
  | some c => c.name
  | none => []

end Error

end Mycel
