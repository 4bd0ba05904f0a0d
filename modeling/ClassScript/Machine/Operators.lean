import ClassScript.Machine.Fault

/-!
# Operators on values

Arithmetic and order are for numbers. A sum joins two strings, or a string and the
text of a number behind it. Any two values can be compared for equality.
-/

namespace ClassScript.Machine

open Syntax Object

def applyUnary (op : UnaryOp) (line : Nat) (operand : Value) : Except Fault Value :=
  match op, operand with
  | .not, v => .ok (.bool !v.isTruthy)
  | .negate, .number n => .ok (.number (-n))
  | .negate, _ => .error (.operandNotNumber line)

/-- The sum of two values. -/
def add (line : Nat) : Value → Value → Except Fault Value
  | .number a, .number b => .ok (.number (a + b))
  | .string a, .string b => .ok (.string (a ++ b))
  | .string a, .number b => .ok (.string (a ++ Number.display b))
  | _, _ => .error (.operandsNotAddable line)

/-- The quotient of two numbers. Zero of either sign divides nothing. -/
def divide (line : Nat) (a b : Float) : Except Fault Value :=
  if b == 0 then .error (.divisionByZero line) else .ok (.number (a / b))

/-- An operator that takes numbers only. -/
def onNumbers (line : Nat) (f : Float → Float → Except Fault Value) :
    Value → Value → Except Fault Value
  | .number a, .number b => f a b
  | _, _ => .error (.operandsNotNumbers line)

def applyBinary (op : BinaryOp) (line : Nat) (left right : Value) : Except Fault Value :=
  match op with
  | .add => add line left right
  | .equal => .ok (.bool (left.equals right))
  | .notEqual => .ok (.bool !left.equals right)
  | .subtract => onNumbers line (fun a b => .ok (.number (a - b))) left right
  | .multiply => onNumbers line (fun a b => .ok (.number (a * b))) left right
  | .divide => onNumbers line (divide line) left right
  | .greater => onNumbers line (fun a b => .ok (.bool (a > b))) left right
  | .greaterEqual => onNumbers line (fun a b => .ok (.bool (a ≥ b))) left right
  | .less => onNumbers line (fun a b => .ok (.bool (a < b))) left right
  | .lessEqual => onNumbers line (fun a b => .ok (.bool (a ≤ b))) left right

/-- Whether the left operand alone decides a logical operator. -/
def decides (op : LogicalOp) (left : Value) : Bool :=
  match op with
  | .or => left.isTruthy
  | .and => !left.isTruthy

end ClassScript.Machine
