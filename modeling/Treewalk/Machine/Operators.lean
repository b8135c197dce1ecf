import Treewalk.Machine.Basic

/-! # Operators

    What the operators do to values. -/

namespace Treewalk

variable {ρ ε : Type}

/-- A result, or the mistake in the operands. -/
abbrev OpResult (ρ : Type := Distance) (ε : Type := Env) := Except RuntimeIssue (Value ρ ε)

/-- Applies a unary operator. -/
def UnaryOp.apply : UnaryOp → Value ρ ε → OpResult ρ ε
  | .negate, .number x => .ok (.number (-x))
  | .negate, _ => .error .numberOperand
  | .not, v => .ok (.bool !v.truthy)

/-- Applies an operator that takes two numbers only. -/
def onNumbers (f : Float → Float → OpResult ρ ε) : Value ρ ε → Value ρ ε → OpResult ρ ε
  | .number x, .number y => f x y
  | _, _ => .error .numberOperands

/-- Applies a binary operator. -/
def BinaryOp.apply : BinaryOp → Value ρ ε → Value ρ ε → OpResult ρ ε
  | .equal, a, b => .ok (.bool (a.equals b))
  | .notEqual, a, b => .ok (.bool !a.equals b)
  | .add, .number x, .number y => .ok (.number (x + y))
  | .add, .string a, .string b => .ok (.string (a ++ b))
  | .add, _, _ => .error .addOperands
  | .subtract, a, b => onNumbers (fun x y => .ok (.number (x - y))) a b
  | .multiply, a, b => onNumbers (fun x y => .ok (.number (x * y))) a b
  | .divide, a, b =>
    onNumbers (fun x y => if y == 0.0 then .error .divisionByZero else .ok (.number (x / y))) a b
  | .greater, a, b => onNumbers (fun x y => .ok (.bool (decide (x > y)))) a b
  | .greaterEqual, a, b => onNumbers (fun x y => .ok (.bool (decide (x ≥ y)))) a b
  | .less, a, b => onNumbers (fun x y => .ok (.bool (decide (x < y)))) a b
  | .lessEqual, a, b => onNumbers (fun x y => .ok (.bool (decide (x ≤ y)))) a b

/-- The left operand already decides the value of a logical expression. -/
def LogicalOp.decided : LogicalOp → Value ρ ε → Bool
  | .or, left => left.truthy
  | .and, left => !left.truthy

/-- Yields the result of an operator on a line, or cuts the run short. -/
def Eval.operator (ctx : Context) (line : Int) : OpResult ρ → EvalOn ρ (Value ρ)
  | .ok v => pure v
  | .error issue => fail ctx issue line

end Treewalk
