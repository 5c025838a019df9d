import Monotype.Constraint

namespace Monotype

/-!
Books kept while a program is walked over.

A `Supply` issues unknowns with the numbers one, two, three and so on; it may
serve several ledgers.  A `Ledger` holds what has been gathered so far.  The
index of a new binder is the number of earlier binders of its name in the same
ledger, so the terms of two binders never coincide.
-/

/-- A source of unknowns that have not been used before. -/
structure Supply where
  issued : Nat := 0
  deriving DecidableEq

namespace Supply

def next (supply : Supply) : Term × Supply :=
  (.numbered (supply.issued + 1), { issued := supply.issued + 1 })

/-- All unknowns issued so far, in order. -/
def unknowns (supply : Supply) : List Term :=
  (List.range supply.issued).map (fun earlier : Nat => .numbered (earlier + 1))

end Supply

/-- What has been gathered so far. -/
structure Ledger where
  constraints : List Constraint := []
  nodeTerms : Table Nat Term := .empty
  binders : List Binder := []

namespace Ledger

/-- Demand that two terms denote one type. -/
def equate (ledger : Ledger) (left right : Term) (node : Nat) (reason : Text) : Ledger :=
  { ledger with constraints := ledger.constraints ++ [⟨⟨left, right⟩, node, reason⟩] }

/-- The term for a further binder of a name. -/
def binderTerm (ledger : Ledger) (name : Text) : Term :=
  .binder name (ledger.binders.countP (fun binder => binder.name = name))

def enter (ledger : Ledger) (name : Text) (node : Nat) (place : Option Position) :
    Term × Ledger :=
  let term := ledger.binderTerm name
  (term, { ledger with binders := ledger.binders ++ [⟨name, term, node, place⟩] })

/-- Note the term of a node; a later note replaces an earlier one. -/
def record (ledger : Ledger) (node : Nat) (term : Term) : Ledger :=
  { ledger with nodeTerms := ledger.nodeTerms.insert node term }

/-- All that has been gathered, for a program with the given root term. -/
def close (ledger : Ledger) (supply : Supply) (root : Term) : ConstraintSet where
  constraints := ledger.constraints
  unknowns := supply.unknowns
  nodeTerms := ledger.nodeTerms
  binders := ledger.binders
  root := root

end Ledger

end Monotype
