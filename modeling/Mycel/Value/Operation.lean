import Mycel.Decimal.Binary
import Mycel.Error.Fault
import Mycel.Value.Basic

/-!
# Operations on values

Arithmetic and order take numbers; the left operand is looked at first. Equality takes anything.
-/

namespace Mycel

/-- The number that an operator needs as an operand. -/
def Operator.operand (o : Operator) : Value → Except Fault Float
  | .number x => .ok x
  | v => .error (.operand o.spelling v.kind v.inspect)

/-- The result of an operator on two numbers. -/
def Operator.arithmetic (f : Float → Float → Float) (o : Operator) (a b : Value) :
    Except Fault Value := do
  let x ← o.operand a
  let y ← o.operand b
  return .number (f x y)

/-- The result of a division or remainder, which zero does not allow. -/
def Operator.division (f : Float → Float → Float) (o : Operator) (a b : Value) :
    Except Fault Value := do
  let x ← o.operand a
  let y ← o.operand b
  if y == 0 then throw .divideByZero else return .number (f x y)

/-- The result of comparing two numbers. -/
def Operator.order (r : Float → Float → Bool) (o : Operator) (a b : Value) :
    Except Fault Value := do
  let x ← o.operand a
  let y ← o.operand b
  return .bool (r x y)

/-- The result of an operator on two values. -/
def Operator.apply (o : Operator) (a b : Value) : Except Fault Value :=
  match o with
  | .add => o.arithmetic (· + ·) a b
  | .sub => o.arithmetic (· - ·) a b
  | .mul => o.arithmetic (· * ·) a b
  | .div => o.division (· / ·) a b
  | .rem => o.division remainder a b
  | .less => o.order (fun x y => x < y) a b
  | .greater => o.order (fun x y => y < x) a b
  | .lessEqual => o.order (fun x y => x ≤ y) a b
  | .greaterEqual => o.order (fun x y => y ≤ x) a b
  | .equal => .ok (.bool (a.same b))
  | .notEqual => .ok (.bool !(a.same b))
  | .and => .ok (if a.isTruthy then b else .bool false)
  | .or => .ok (if a.isTruthy then a else b)
  | .other spelling => .error (.unknownOperator spelling)

end Mycel
