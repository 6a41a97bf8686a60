import Lox.Fault
import Lox.Number.Meaning
import Lox.Value

/-!
  Operators on values.

  Addition joins two numbers or two strings, equality takes anything, every other binary operator takes two
  numbers.  The kind of values is looked at before the operator itself, so that a token that is no operator
  is only told apart once both sides are numbers.

  Operators neither read nor change a state, so they are plain functions with a fault, and the token is added
  by whoever applies them.  Arithmetic is that of doubles: a division by zero has an infinite value, or none,
  and is not a fault.  `and` and `or` are no operators on values, since they may leave their right side out;
  `shortCircuits` is all there is to know about them.
-/

namespace Lox.Operator

variable {ρ : Type}

/-- The value of a unary operator. -/
def unary (operator : TokenKind) (right : Value ρ) : Except RuntimeFault (Value ρ) :=
  match operator, right with
  | .mark .minus, .number x => .ok (.number (-x))
  | .mark .minus, _ => .error .operandNotNumber
  | .mark .bang, v => .ok (.bool (!v.truthy))
  | _, _ => .error .invalidUnary

/-- The value of an operator on two numbers.  Division by zero is infinite or no number. -/
def onNumbers (operator : TokenKind) (a b : Float) : Except RuntimeFault (Value ρ) :=
  match operator with
  | .mark .minus => .ok (.number (a - b))
  | .mark .star => .ok (.number (a * b))
  | .mark .slash => .ok (.number (a / b))
  | .mark .percent => .ok (.number (Number.remainder a b))
  | .mark .greater => .ok (.bool (b < a))
  | .mark .greaterEqual => .ok (.bool (b ≤ a))
  | .mark .less => .ok (.bool (a < b))
  | .mark .lessEqual => .ok (.bool (a ≤ b))
  | _ => .error .invalidBinary

/-- The value of addition. -/
def add : Value ρ → Value ρ → Except RuntimeFault (Value ρ)
  | .number a, .number b => .ok (.number (a + b))
  | .string a, .string b => .ok (.string (a ++ b))
  | _, _ => .error .operandsNotAddable

/-- The value of a binary operator. -/
def binary (operator : TokenKind) (left right : Value ρ) : Except RuntimeFault (Value ρ) :=
  match operator with
  | .mark .plus => add left right
  | .mark .equalEqual => .ok (.bool (left.same right))
  | .mark .bangEqual => .ok (.bool (!left.same right))
  | _ =>
    match left, right with
    | .number a, .number b => onNumbers operator a b
    | _, _ => .error .operandsNotNumbers

/-- Whether a logical operator leaves its right side alone: an `or` behind a true left side, any
    other behind one that is not true. -/
def shortCircuits (operator : TokenKind) (left : Value ρ) : Bool :=
  if operator = .keyword .orKw then left.truthy else !left.truthy

end Lox.Operator
