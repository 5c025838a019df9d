import Monotype.Table
import Monotype.Token
import Monotype.Term

namespace Monotype

/-!
What has to hold for a program to have types.

Walking over a program gives equations between terms.  Each equation remembers
the node it comes from, by number, and a short reason.
-/

/-- Two terms that must denote one type. -/
structure Equation where
  left : Term
  right : Term
  deriving DecidableEq

namespace Equation

def display (equation : Equation) : Text :=
  "(" ++ equation.left.display ++ ", " ++ equation.right.display ++ ")"

def displayAll (equations : List Equation) : Text :=
  Text.unlines (equations.map display)

end Equation

/-- An equation with the node that demands it and the reason. -/
structure Constraint extends Equation where
  node : Nat
  reason : Text
  deriving DecidableEq

/-- A binding met on the walk: its name, the term that stands for its type, its
node and the place of the node. -/
structure Binder where
  name : Text
  term : Term
  node : Nat
  place : Option Position
  deriving DecidableEq

/-- Everything that a walk over a program has gathered. -/
structure ConstraintSet where
  constraints : List Constraint
  unknowns : List Term
  nodeTerms : Table Nat Term
  binders : List Binder
  root : Term

/-- Which operands `<`, `<=`, `>` and `>=` take: integers only, or any two of
one type. -/
inductive Comparison where
  | int | same
  deriving DecidableEq

end Monotype
