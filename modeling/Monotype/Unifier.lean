import Monotype.Constraint
import Monotype.Forest

namespace Monotype

/-!
Equivalence classes of terms.

A unifier takes equations one after the other and keeps the terms that it has
seen in classes.  A `ClassMap` is a snapshot of the classes: they are numbered
by their earliest members, and members and keys are in the order in which the
terms were first seen.
-/

/-- Terms that denote one type. -/
structure TermClass where
  id : Nat
  members : List Term
  deriving DecidableEq

/-- Classes, and for the key of a term the position of its class among them. -/
structure ClassMap where
  classes : List TermClass
  positions : Table Text Nat

namespace ClassMap

/-- The positions of the classes that keys refer to, in the order of the keys. -/
def order (map : ClassMap) : List Nat :=
  map.positions.values.eraseDups

/-- The classes that keys refer to, in the order of the keys. -/
def distinct (map : ClassMap) : List TermClass :=
  map.order.filterMap (fun position => map.classes[position]?)

def find? (map : ClassMap) (key : Text) : Option TermClass :=
  (map.positions.find? key).bind (fun position => map.classes[position]?)

/-- The classes of terms that come with representatives, in order. -/
def ofVisit (visits : List (Term × Nat)) : ClassMap :=
  let roots := (visits.map Prod.snd).eraseDups
  { classes := roots.mapIdx (fun id root =>
      { id := id
        members := (visits.filter (fun visit => visit.2 = root)).map Prod.fst })
    positions := Table.ofList (visits.map (fun visit => (visit.1.key, roots.idxOf visit.2))) }

def display (map : ClassMap) : Text :=
  Text.unlines (map.distinct.map (fun termClass => Term.displaySet termClass.members))

end ClassMap

/-- The terms seen so far in their classes, and the number of merges that have
joined two classes. -/
structure Unifier where
  sets : Forest Term.key := {}
  merges : Nat := 0

namespace Unifier

/-- Take two terms to denote one type.  The answer is whether that was new. -/
def unify (unifier : Unifier) (left right : Term) : Bool × Unifier :=
  let (merged, sets) := unifier.sets.union left right
  (merged, { sets := sets, merges := if merged then unifier.merges + 1 else unifier.merges })

/-- Take equations in order. -/
def unifyAll (unifier : Unifier) (equations : List Equation) : Unifier :=
  equations.foldl (fun unifier equation => (unifier.unify equation.left equation.right).2) unifier

/-- Whether two terms are known to denote one type. -/
def equivalent (unifier : Unifier) (left right : Term) : Bool × Unifier :=
  let (answer, sets) := unifier.sets.connected left right
  (answer, { unifier with sets := sets })

def classes (unifier : Unifier) : ClassMap × Unifier :=
  let (visits, sets) := unifier.sets.visit
  (ClassMap.ofVisit visits, { unifier with sets := sets })

def size (unifier : Unifier) : Nat :=
  unifier.sets.size

end Unifier

def ClassMap.ofEquations (equations : List Equation) : ClassMap :=
  (({} : Unifier).unifyAll equations).classes.1

end Monotype
