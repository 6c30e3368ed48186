import Lox.RuntimeError
import Lox.Store.Value

set_option autoImplicit false

/-! # Operators on values

Arithmetic and order are those of doubles, so a division by zero is no error. Addition also
joins strings. Every two values can be compared for equality.
-/

namespace Lox

/-- The value of a unary operator. -/
def UnaryOp.apply : UnaryOp → Value → Except RuntimeError.Cause Value
  | negate, .number x => .ok (.number (-x))
  | negate, _ => .error .operandNotNumber
  | not, v => .ok (.bool !v.isTruthy)

/-- The value of an operator on two numbers. -/
def Value.ofNumbers (f : Float → Float → Value) :
    Value → Value → Except RuntimeError.Cause Value
  | number x, number y => .ok (f x y)
  | _, _ => .error .operandsNotNumbers

/-- The sum of two numbers, or two strings joined. -/
def Value.add : Value → Value → Except RuntimeError.Cause Value
  | number x, number y => .ok (.number (x + y))
  | string s, string t => .ok (.string (s ++ t))
  | _, _ => .error .operandsNotAddable

/-- The value of a binary operator. -/
def BinaryOp.apply (op : BinaryOp) (left right : Value) : Except RuntimeError.Cause Value :=
  match op with
  | add => left.add right
  | subtract => Value.ofNumbers (fun x y => .number (x - y)) left right
  | multiply => Value.ofNumbers (fun x y => .number (x * y)) left right
  | divide => Value.ofNumbers (fun x y => .number (x / y)) left right
  | less => Value.ofNumbers (fun x y => .bool (x < y)) left right
  | lessEqual => Value.ofNumbers (fun x y => .bool (x ≤ y)) left right
  | greater => Value.ofNumbers (fun x y => .bool (x > y)) left right
  | greaterEqual => Value.ofNumbers (fun x y => .bool (x ≥ y)) left right
  | equal => .ok (.bool (left.equals right))
  | notEqual => .ok (.bool !(left.equals right))

/-- The left operand decides alone: a truthy one `or`, any other one `and`. -/
def LogicalOp.isDecidedBy : LogicalOp → Value → Bool
  | or, v => v.isTruthy
  | and, v => !v.isTruthy

end Lox
