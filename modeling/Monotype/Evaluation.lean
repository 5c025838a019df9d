import Monotype.Env
import Monotype.Value

namespace Monotype
namespace Expr

/-!
The value of an expression.

Operands are evaluated from left to right before their types are looked at,
except that `and` and `or` leave out the right operand when the left one decides.
Integers are unbounded, and a quotient is rounded toward zero.
-/

/-- What a binary operator does.  A logical operator is decided by its left
operand when that has the given truth value; a numeric one acts on integers. -/
inductive Meaning where
  | logical (decisive : Bool)
  | equality
  | numeric (result : Int -> Int -> Except EvalFault Value)

def meaning : BinaryOp -> Meaning
  | .and => .logical false
  | .or => .logical true
  | .eql => .equality
  | .add => .numeric (fun left right => .ok (.int (left + right)))
  | .sub => .numeric (fun left right => .ok (.int (left - right)))
  | .mul => .numeric (fun left right => .ok (.int (left * right)))
  | .div => .numeric (fun left right =>
      if right = 0 then .error .divisionByZero else .ok (.int (left.tdiv right)))
  | .lt => .numeric (fun left right => .ok (.bool (left < right)))
  | .le => .numeric (fun left right => .ok (.bool (left ≤ right)))
  | .gt => .numeric (fun left right => .ok (.bool (right < left)))
  | .ge => .numeric (fun left right => .ok (.bool (right ≤ left)))

/-- Whether two values of one type are equal. -/
def compare : Value -> Value -> Except EvalFault Value
  | .int left, .int right => .ok (.bool (left = right))
  | .bool left, .bool right => .ok (.bool (left = right))
  | _, _ => .error .mixedOperands

def evaluate : Env Value -> Expr -> Except EvalFault Value
  | _, int value _ => .ok (.int value)
  | _, bool value _ => .ok (.bool value)
  | env, var name _ =>
      match env.find? name with
      | some value => .ok value
      | none => .error (.undefinedName name)
  | env, letIn name bound body _ => do
      let value ← evaluate env bound
      evaluate (env.bind name value) body
  | env, ite condition consequent alternate _ => do
      let value ← evaluate env condition
      let chosen ← value.expectBool .condition
      if chosen then evaluate env consequent else evaluate env alternate
  | env, unary .neg operand _ => do
      let value ← evaluate env operand
      let number ← value.expectInt (.operand .neg)
      return .int (-number)
  | env, unary .not operand _ => do
      let value ← evaluate env operand
      let truth ← value.expectBool (.operand .not)
      return .bool (!truth)
  | env, binary op left right _ => do
      let leftValue ← evaluate env left
      match meaning op with
      | .logical decisive =>
          let leftTruth ← leftValue.expectBool (.left op)
          if leftTruth = decisive then return .bool leftTruth
          else
            let rightValue ← evaluate env right
            let rightTruth ← rightValue.expectBool (.right op)
            return .bool rightTruth
      | .equality =>
          let rightValue ← evaluate env right
          compare leftValue rightValue
      | .numeric result =>
          let rightValue ← evaluate env right
          let leftNumber ← leftValue.expectInt (.left op)
          let rightNumber ← rightValue.expectInt (.right op)
          result leftNumber rightNumber

end Expr
end Monotype
