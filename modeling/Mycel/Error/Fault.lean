import Mycel.Error.Basic
import Mycel.Text.Quoted

/-!
# Faults

`Fault` lists what can go wrong in reading and evaluating a program. The class, the wording and the
cause of each are given here and nowhere else.
-/

namespace Mycel

/-- What can go wrong. -/
inductive Fault where
  /-- A byte that starts no token. -/
  | invalidCharacter (byte : UInt8)
  /-- A string without its closing quote; `rest` is the source from the opening one. -/
  | unterminatedString (rest : Text)
  /-- A number that no double is near. -/
  | malformedNumber (literal : Text)
  /-- A token where another one has to stand. -/
  | expecting (expected found : Text)
  /-- A token that starts no expression. -/
  | unexpectedToken (found : Text)
  /-- A name that no scope in sight binds. -/
  | undefinedVariable (name : Text)
  /-- An operand that is not a number. -/
  | operand (operator kind shown : Text)
  | divideByZero
  | unknownOperator (operator : Text)
  /-- A value in call position that cannot be called. -/
  | notCallable (kind shown : Text)
  /-- An assignment to something other than a name. -/
  | assignTarget (shown : Text)
  /-- A run whose last continuation was never reached. -/
  | stalled
  /-- A run that was told to stop, and did at a bounce. -/
  | canceled (target reason : Text)
  /-- A run with more bounces than it may have. -/
  | bounceLimit (limit : Int)
  /-- A tree with a part missing. -/
  | missingNode
  /-- A primitive that could not write. -/
  | writeFailed (primitive reason : Text)
  /-- A path without the suffix of a source file. -/
  | notSource (path : Text)
  /-- A source file that could not be read. -/
  | unreadable (path reason : Text)
  deriving DecidableEq, Repr

namespace Fault

/-- The class of a fault. -/
def code : Fault → Code
  | invalidCharacter _ | unterminatedString _ | malformedNumber _ => .lex
  | expecting _ _ | unexpectedToken _ => .parse
  | undefinedVariable _ => .undefined
  | operand _ _ _ => .type
  | divideByZero => .divideByZero
  | unknownOperator _ => .unknownOperator
  | notCallable _ _ => .notCallable
  | assignTarget _ => .assignTarget
  | stalled => .stalled
  | canceled _ _ => .canceled
  | bounceLimit _ => .bounceLimit
  | missingNode | writeFailed _ _ | notSource _ | unreadable _ _ => .input

/-- The wording of a fault. -/
def message : Fault → Text
  | invalidCharacter b => bytes "invalid character " ++ Quoted.character b.toNat
  | unterminatedString _ => bytes "unterminated string"
  | malformedNumber literal => bytes "malformed number " ++ Quoted.text literal
  | expecting expected found => bytes "expecting " ++ expected ++ bytes ", found " ++ found
  | unexpectedToken found => bytes "unexpected token " ++ found
  | undefinedVariable name => bytes "undefined variable " ++ name
  | operand operator kind shown =>
    bytes "operator " ++ operator ++ bytes " expected number but got " ++ kind ++ bytes " " ++ shown
  | divideByZero => bytes "divide by zero"
  | unknownOperator operator => bytes "can't apply operator " ++ operator
  | notCallable kind shown => kind ++ bytes " is not callable: " ++ shown
  | assignTarget shown => bytes "cannot assign to " ++ shown
  | stalled => bytes "evaluation ended without a result"
  | canceled target _ => bytes "evaluation canceled at " ++ target
  | bounceLimit limit => bytes "evaluation exceeded " ++ Text.ofInt limit ++ bytes " bounces"
  | missingNode => bytes "cannot evaluate a nil node"
  | writeFailed primitive _ => primitive ++ bytes " failed"
  | notSource path => path
  | unreadable path _ => bytes "cannot read " ++ path

/-- What would have been accepted. -/
def expected : Fault → Text
  | expecting expected _ => expected
  | _ => []

/-- What was there instead. -/
def found : Fault → Text
  | invalidCharacter b => Utf8.encode b.toNat
  | unterminatedString rest => rest
  | malformedNumber literal => literal
  | expecting _ found => found
  | unexpectedToken found => found
  | undefinedVariable name => name
  | _ => []

/-- The reason that the host gives, or the language itself. -/
def cause? : Fault → Option Text
  | stalled => some (bytes "continuation was never invoked")
  | canceled _ reason => some reason
  | writeFailed _ reason => some reason
  | notSource _ => some (bytes "not a Mycel file")
  | unreadable _ reason => some reason
  | _ => none

/-- The finding that reports a fault at a position. -/
def diagnostic (f : Fault) (pos : Pos) : Diagnostic :=
  { code := f.code, message := f.message, pos, expected := f.expected, found := f.found }

/-- The error that reports a fault at a position. -/
def error (f : Fault) (pos : Pos) : Error :=
  match f.cause? with
  | none => .report (f.diagnostic pos)
  | some reason => .caused (f.diagnostic pos) (.plain reason)

end Fault

end Mycel
