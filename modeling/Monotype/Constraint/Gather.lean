import Monotype.Env
import Monotype.Expr
import Monotype.Constraint.Ledger

namespace Monotype

/-!
The walk that turns a program into constraints.

Each node is given a term after its children have been given theirs.  A binder
has one term for all its uses, so a program name is never used at two types.
The operands of `=` share an unknown: they must have one type, and it may be
either.  The same holds of the orderings if the comparison rule says so.

The walk stops at a name that no binding encloses.  What had been gathered up to
that point stays in the books.
-/

/-- The name that stopped a walk: no binding encloses it. -/
structure Unbound where
  name : Text
  deriving DecidableEq

namespace Unbound

def message (unbound : Unbound) : Text :=
  "Unbound variable " ++ Text.quoted unbound.name ++ " reached constraint generation"

end Unbound

/-- The books that a walk writes to. -/
structure Books where
  supply : Supply := {}
  ledger : Ledger := {}

/-- A walk that writes to the books and may stop at an unbound name. -/
abbrev Gather := EStateM Unbound Books

namespace Gather

/-- An unknown that has not been used before. -/
def fresh : Gather Term :=
  modifyGet (fun books =>
    let issue := books.supply.next
    (issue.1, { books with supply := issue.2 }))

/-- Demand that two terms denote one type. -/
def equate (left right : Term) (node : Nat) (reason : Text) : Gather Unit :=
  modify (fun books => { books with ledger := books.ledger.equate left right node reason })

/-- Enter a binding and give its term. -/
def enter (name : Text) (node : Nat) (place : Option Position) : Gather Term :=
  modifyGet (fun books =>
    let entry := books.ledger.enter name node place
    (entry.1, { books with ledger := entry.2 }))

/-- Note the term of a node and give it back. -/
def recorded (node : Nat) (term : Term) : Gather Term :=
  modifyGet (fun books => (term, { books with ledger := books.ledger.record node term }))

/-- The type of the operand, and of the result, of a unary operator. -/
def unaryType : UnaryOp -> Ground
  | .neg => .int
  | .not => .bool

def resultType (op : BinaryOp) : Ground :=
  match op.family with
  | .arithmetic => .int
  | _ => .bool

/-- The type that both operands of a binary operator must have, or `none` if
any one type will do. -/
def operandType? (comparison : Comparison) (op : BinaryOp) : Option Ground :=
  match op.family, comparison with
  | .arithmetic, _ => some .int
  | .logical, _ => some .bool
  | .ordering, .int => some .int
  | .ordering, .same => none
  | .equality, _ => none

/-- The term that both operands of a binary operator are equated with. -/
def operandTerm (comparison : Comparison) (op : BinaryOp) : Gather Term :=
  match operandType? comparison op with
  | some type => pure (.ground type)
  | none => fresh

/-- Give a term to every node of an expression whose root has number `node`. -/
def walk (comparison : Comparison) : Env Term -> (node : Nat) -> Expr -> Gather Term
  | _, node, .int _ _ => recorded node .int
  | _, node, .bool _ _ => recorded node .bool
  | env, node, .var name _ =>
      match env.find? name with
      | some term => recorded node term
      | none => throw ⟨name⟩
  | env, node, .letIn name bound body place => do
      let boundTerm ← walk comparison env (node + 1) bound
      let binder ← enter name node place
      equate binder boundTerm node ("binding of " ++ Text.quoted name)
      let bodyTerm ← walk comparison (env.bind name binder) (node + 1 + bound.size) body
      let result ← fresh
      equate result bodyTerm node "let result is its body"
      recorded node result
  | env, node, .ite condition consequent alternate _ => do
      let conditionTerm ← walk comparison env (node + 1) condition
      let consequentTerm ← walk comparison env (node + 1 + condition.size) consequent
      let alternateTerm ←
        walk comparison env (node + 1 + condition.size + consequent.size) alternate
      equate conditionTerm .bool node "condition must be bool"
      equate consequentTerm alternateTerm node "branches must agree"
      recorded node consequentTerm
  | env, node, .unary op operand _ => do
      let operandTerm ← walk comparison env (node + 1) operand
      equate operandTerm (.ground (unaryType op)) node ("operand of " ++ op.name)
      recorded node (.ground (unaryType op))
  | env, node, .binary op left right _ => do
      let leftTerm ← walk comparison env (node + 1) left
      let rightTerm ← walk comparison env (node + 1 + left.size) right
      let shared ← operandTerm comparison op
      equate leftTerm shared node ("left operand of " ++ op.name)
      equate rightTerm shared node ("right operand of " ++ op.name)
      recorded node (.ground (resultType op))

/-- Walk over a whole program and take stock. -/
def program (comparison : Comparison) (node : Nat) (e : Expr) : Gather ConstraintSet := do
  let root ← walk comparison [] node e
  let books ← get
  return books.ledger.close books.supply root

end Gather

namespace Expr

/-- The constraints of a program on its own, with its nodes numbered from zero. -/
def constraints (e : Expr) (comparison : Comparison) : Except Unbound ConstraintSet :=
  match Gather.program comparison 0 e {} with
  | .ok gathered _ => .ok gathered
  | .error unbound _ => .error unbound

end Expr

/-- A ledger that is kept from program to program, under one comparison rule. -/
structure Generator where
  comparison : Comparison
  ledger : Ledger := {}

/-- Generators that draw on one supply of unknowns. -/
structure Workshop where
  supply : Supply := {}
  generators : List Generator

namespace Workshop

/-- Let one generator walk over a program whose root has number `node`.  What it
has gathered before stays, also if it stopped midway; `none` if there is no such
generator. -/
def run (workshop : Workshop) (which node : Nat) (e : Expr) :
    Option (Except Unbound ConstraintSet × Workshop) :=
  match workshop.generators[which]? with
  | none => none
  | some generator =>
      let store (books : Books) : Workshop :=
        { supply := books.supply
          generators := workshop.generators.set which { generator with ledger := books.ledger } }
      match Gather.program generator.comparison node e ⟨workshop.supply, generator.ledger⟩ with
      | .ok gathered books => some (.ok gathered, store books)
      | .error unbound books => some (.error unbound, store books)

end Workshop

end Monotype
