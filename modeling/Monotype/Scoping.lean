import Monotype.Expr

namespace Monotype
namespace Expr

/-!
Names that are used where they have no meaning.

A binding gives its name a meaning in its body and not in its bound expression.
-/

/-- Add a name to a list of different names, at the end and only once. -/
def noteName (names : List Text) (name : Text) : List Text :=
  if name ∈ names then names else names ++ [name]

/-- Add to `found` the names that an expression uses and that are not in
`defined`, in the order of their first use. -/
def collectUndefined (defined : List Text) (found : List Text) : Expr -> List Text
  | int _ _ => found
  | bool _ _ => found
  | var name _ => if name ∈ defined then found else noteName found name
  | letIn name bound body _ =>
      collectUndefined (name :: defined) (collectUndefined defined found bound) body
  | ite condition consequent alternate _ =>
      collectUndefined defined
        (collectUndefined defined (collectUndefined defined found condition) consequent)
        alternate
  | unary _ operand _ => collectUndefined defined found operand
  | binary _ left right _ =>
      collectUndefined defined (collectUndefined defined found left) right

/-- The names that an expression uses without a meaning, in the order of their
first use, when the names in `defined` have one from outside. -/
def undefinedNames (e : Expr) (defined : List Text) : List Text :=
  collectUndefined defined [] e

/-- Whether every name that an expression uses is bound inside it. -/
def isWellScoped (e : Expr) : Bool :=
  (e.undefinedNames []).isEmpty

end Expr
end Monotype
