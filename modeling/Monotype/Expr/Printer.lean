import Monotype.Expr

namespace Monotype
namespace Expr

/-!
Expressions as program text.

Every operator application and every conditional is put in parentheses, so no
rule of precedence is needed to read the text back.
-/

def textOfBool : Bool -> Text
  | true => "true"
  | false => "false"

/-- An expression in program text, with all parentheses. -/
def print : Expr -> Text
  | int value _ => Text.ofInt value
  | bool value _ => textOfBool value
  | var name _ => name
  | letIn name bound body _ =>
      "let " ++ name ++ " <- " ++ bound.print ++ " in " ++ body.print ++ " end"
  | ite condition consequent alternate _ =>
      "(if " ++ condition.print ++ " then " ++ consequent.print ++ " else "
        ++ alternate.print ++ ")"
  | unary op operand _ => "(" ++ op.sign ++ " " ++ operand.print ++ ")"
  | binary op left right _ =>
      "(" ++ left.print ++ " " ++ op.sign ++ " " ++ right.print ++ ")"

/-- What is printed depends on the tree and not on places. -/
theorem print_bare (e : Expr) : e.bare.print = e.print := by
  induction e with
  | int value place => rfl
  | bool value place => rfl
  | var name place => rfl
  | letIn name bound body place ihBound ihBody =>
      simp only [bare, print, ihBound, ihBody]
  | ite condition consequent alternate place ihCondition ihConsequent ihAlternate =>
      simp only [bare, print, ihCondition, ihConsequent, ihAlternate]
  | unary op operand place ih => simp only [bare, print, ih]
  | binary op left right place ihLeft ihRight => simp only [bare, print, ihLeft, ihRight]

end Expr
end Monotype
