import Monotype.Expr
import Monotype.Expr.Printer

namespace Monotype

/-!
Values, and what can go wrong on the way to one.

Evaluation may meet a value of the wrong type, a name without a value, or a
division by zero.  A value of the wrong type is reported with the part that it
plays in the expression.
-/

inductive Value where
  | int (value : Int)
  | bool (value : Bool)
  deriving DecidableEq

namespace Value

/-- A value in program text. -/
def text : Value -> Text
  | int value => Text.ofInt value
  | bool value => Expr.textOfBool value

end Value

/-- The part that a value plays in an expression. -/
inductive Part where
  | condition
  | operand (op : UnaryOp)
  | left (op : BinaryOp)
  | right (op : BinaryOp)
  deriving DecidableEq

namespace Part

def description : Part -> Text
  | condition => "condition"
  | operand op => "operand of " ++ op.sign
  | left op => "left operand of " ++ op.name
  | right op => "right operand of " ++ op.name

end Part

/-- Why an expression has no value. -/
inductive EvalFault where
  | notInt (part : Part)
  | notBool (part : Part)
  | mixedOperands
  | undefinedName (name : Text)
  | divisionByZero
  deriving DecidableEq

namespace EvalFault

inductive Kind where
  | typeError | undefinedVariable | divisionByZero
  deriving DecidableEq

def kind : EvalFault -> Kind
  | notInt _ => .typeError
  | notBool _ => .typeError
  | mixedOperands => .typeError
  | undefinedName _ => .undefinedVariable
  | divisionByZero => .divisionByZero

def message : EvalFault -> Text
  | notInt part => part.description ++ " must be int, got bool"
  | notBool part => part.description ++ " must be bool, got int"
  | mixedOperands => "operands of = must have the same type"
  | undefinedName name => "undefined variable " ++ Text.quoted name
  | divisionByZero => "division by zero"

end EvalFault

namespace Value

/-- The integer that a value is required to be. -/
def expectInt (part : Part) : Value -> Except EvalFault Int
  | int value => .ok value
  | bool _ => .error (.notInt part)

/-- The truth value that a value is required to be. -/
def expectBool (part : Part) : Value -> Except EvalFault Bool
  | bool value => .ok value
  | int _ => .error (.notBool part)

end Value

end Monotype
