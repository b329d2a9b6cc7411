/-
# Operators

What the binary and unary operators do with values. Equality takes any two
values. A plus adds two numbers, or joins the texts of two values of which one
is a string. The others take numbers, and an operator that is none of these
fails before its operands are looked at. Every failure stands at the operator.

Key definitions: `Lox.binaryResult`, `Lox.unaryResult`, `Lox.arithmetic?`.
-/
import Lox.Store

namespace Lox

/-- What an operator does with two numbers. -/
def arithmetic? : TokenKind → Option (Double → Double → Value)
  | .minus => some fun x y => .number (x.sub y)
  | .star => some fun x y => .number (x.mul y)
  | .slash => some fun x y => .number (x.div y)
  | .greater => some fun x y => .bool (y.less x)
  | .greaterEqual => some fun x y => .bool (y.lessEqual x)
  | .less => some fun x y => .bool (x.less y)
  | .lessEqual => some fun x y => .bool (x.lessEqual y)
  | _ => none

/-- Arithmetic gives constants. -/
theorem arithmetic?_const {kind : TokenKind} {g : Double → Double → Value}
    (h : arithmetic? kind = some g) (x y : Double) : ∃ c, g x y = .const c := by
  unfold arithmetic? at h
  split at h <;> cases h <;> exact ⟨_, rfl⟩

/-- The sum of two numbers, or the joined texts if one side is a string. -/
def joinOrAdd (op : Mark) (left right : Value) : Run Value := do
  match left, right with
  | .const (.number x), .const (.number y) => return .number (x.add y)
  | .const (.string a), right => return .string (a ++ (← Procedure.read (·.display right)))
  | left, .const (.string b) => return .string ((← Procedure.read (·.display left)) ++ b)
  | _, _ => Run.fail .operandsNotAddable op.offset

/-- A binary operator on two values. -/
def binaryResult (op : Mark) (left right : Value) : Run Value :=
  match op.kind with
  | .plus => joinOrAdd op left right
  | .equalEqual => return .bool (left.equals right)
  | .bangEqual => return .bool (!left.equals right)
  | kind =>
    match arithmetic? kind with
    | none => Run.fail (.unsupportedOperator op.text) op.offset
    | some f =>
      match left, right with
      | .const (.number x), .const (.number y) => return f x y
      | _, _ => Run.fail .operandsNotNumbers op.offset

/-- A unary operator on a value. -/
def unaryResult (op : Mark) (operand : Value) : Run Value :=
  match op.kind with
  | .minus =>
    match operand with
    | .const (.number x) => return .number x.neg
    | _ => Run.fail .operandNotNumber op.offset
  | .bang => return .bool (!operand.truthy)
  | _ => Run.fail (.unsupportedUnary op.text) op.offset

end Lox
