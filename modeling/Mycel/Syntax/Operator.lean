import Mycel.Text.Basic

/-!
# Operators

`Operator` names the binary operators that can be applied to two values. In a source, an operand
chain also has `=`, `&&` and `||`; a `Connective` is anything that may stand between two operands,
and binds the tighter the greater its precedence.
-/

namespace Mycel

/-- The binary operators. -/
inductive Operator where
  | add
  | sub
  | mul
  | div
  | rem
  | less
  | greater
  | lessEqual
  | greaterEqual
  | equal
  | notEqual
  | and
  | or
  /-- An operator that only a tree built by a host has; it cannot be applied. -/
  | other (spelling : Text)
  deriving DecidableEq, Repr

namespace Operator

/-- The operators that can be applied. -/
def all : List Operator :=
  [add, sub, mul, div, rem, less, greater, lessEqual, greaterEqual, equal, notEqual, and, or]

/-- How an operator is written. -/
def spelling : Operator → Text
  | add => bytes "+"
  | sub => bytes "-"
  | mul => bytes "*"
  | div => bytes "/"
  | rem => bytes "%"
  | less => bytes "<"
  | greater => bytes ">"
  | lessEqual => bytes "<="
  | greaterEqual => bytes ">="
  | equal => bytes "=="
  | notEqual => bytes "!="
  | and => bytes "&&"
  | or => bytes "||"
  | other s => s

/-- The operator with a given spelling. -/
def ofSpelling (t : Text) : Operator := (all.find? fun o => o.spelling == t).getD (other t)

end Operator

/-- What may stand between two operands. -/
inductive Connective where
  | assign
  | or
  | and
  | operator (o : Operator)
  deriving DecidableEq, Repr

namespace Connective

/-- The connectives of the language. -/
def all : List Connective :=
  [assign, or, and, operator .less, operator .greater, operator .lessEqual, operator .greaterEqual,
    operator .equal, operator .notEqual, operator .add, operator .sub, operator .mul, operator .div,
    operator .rem]

/-- How a connective is written. -/
def spelling : Connective → Text
  | assign => bytes "="
  | or => bytes "||"
  | and => bytes "&&"
  | operator o => o.spelling

/-- How tightly a connective binds its operands. -/
def precedence : Connective → Nat
  | assign => 1
  | or => 2
  | and => 3
  | operator .less | operator .greater | operator .lessEqual | operator .greaterEqual
  | operator .equal | operator .notEqual => 7
  | operator .add | operator .sub => 10
  | operator .mul | operator .div | operator .rem => 20
  | operator .and => 3
  | operator .or => 2
  | operator (.other _) => 0

/-- The connective with a given spelling. -/
def ofSpelling? (t : Text) : Option Connective := all.find? fun c => c.spelling == t

end Connective

end Mycel
