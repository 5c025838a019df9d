import Monotype.Constraint.Gather
import Monotype.Naming

namespace Monotype

/-!
Types for a whole program.

The constraints of a program are solved, and the solution is read back for the
program, for each of its nodes and for each of its binders.
-/

structure TypedBinder extends Binder where
  type : Ground
  deriving DecidableEq

namespace TypedBinder

/-- The name under which a binder is shown: later binders of one name carry
their index. -/
def display (binder : TypedBinder) : Text :=
  binder.term.display

end TypedBinder

/-- The types of a program, its terms, its nodes and its binders. -/
structure Typing where
  type : Ground
  terms : Naming
  nodeTypes : Table Nat Ground
  binders : List TypedBinder

/-- What inference finds out: constraints, classes and, if there is no conflict,
types. -/
structure Inference where
  constraints : List Constraint
  classes : ClassMap
  typing : Except NamingFault Typing

namespace Inference

/-- Why inference cannot be carried out. -/
inductive Failure where
  | unbound (cause : Unbound)
  | unconstrained (term : Term)
  deriving DecidableEq

def Failure.message : Failure -> Text
  | unbound cause => cause.message
  | unconstrained term => "Term " ++ term.display ++ " was never constrained"

def typeOf (naming : Naming) (term : Term) : Except Failure Ground :=
  match term.ground? with
  | some type => .ok type
  | none =>
      match naming.find? term.key with
      | some type => .ok type
      | none => .error (.unconstrained term)

/-- The types of nodes, in the order of their terms. -/
def nodeTypes (naming : Naming) : List (Nat × Term) -> Except Failure (List (Nat × Ground))
  | [] => .ok []
  | (node, term) :: rest => do
      let type ← typeOf naming term
      let types ← nodeTypes naming rest
      return (node, type) :: types

def typedBinders (naming : Naming) : List Binder -> Except Failure (List TypedBinder)
  | [] => .ok []
  | binder :: rest => do
      let type ← typeOf naming binder.term
      let typed ← typedBinders naming rest
      return { toBinder := binder, type := type } :: typed

/-- Read the types of a program off a naming of its terms. -/
def readBack (gathered : ConstraintSet) (naming : Naming) : Except Failure Typing := do
  let nodes ← nodeTypes naming gathered.nodeTerms.entries
  let binders ← typedBinders naming gathered.binders
  let type ← typeOf naming gathered.root
  return { type := type, terms := naming, nodeTypes := ⟨nodes⟩, binders := binders }

/-- The equations of constraints, without their origins. -/
def equations (constraints : List Constraint) : List Equation :=
  constraints.map Constraint.toEquation

/-- Solve what has been gathered and read the types back. -/
def ofConstraints (gathered : ConstraintSet) : Except Failure Inference :=
  let solution := Solution.ofEquations (equations gathered.constraints)
  match solution.naming with
  | .error fault =>
      .ok ⟨gathered.constraints, solution.classes, .error fault⟩
  | .ok naming =>
      match readBack gathered naming with
      | .error failure => .error failure
      | .ok typing => .ok ⟨gathered.constraints, solution.classes, .ok typing⟩

end Inference

namespace Expr

def infer (e : Expr) (comparison : Comparison) : Except Inference.Failure Inference :=
  match e.constraints comparison with
  | .error unbound => .error (.unbound unbound)
  | .ok gathered => Inference.ofConstraints gathered

end Expr

namespace Inference

def typeError : Text := "Type error"

/-- The type of the program in one word, or that it has none. -/
def verdict (inference : Inference) : Text :=
  match inference.typing with
  | .ok typing => typing.type.name
  | .error _ => typeError

end Inference

end Monotype
