import Monotype.Unifier

namespace Monotype

/-!
One type for every class.

A class has a type if its members include exactly one of the two types.  The
first class without one is reported: it has no type at all, or both.
-/

/-- Why a class of terms has no type. -/
inductive NamingFault where
  | unresolved (term : Term) (members : List Term)
  | conflicting (types : List Ground) (term : Term) (members : List Term)
  deriving DecidableEq

namespace NamingFault

/-- The sort of a fault in one word. -/
def kind : NamingFault -> Text
  | unresolved _ _ => "unresolved"
  | conflicting _ _ _ => "conflicting"

def term : NamingFault -> Term
  | unresolved term _ => term
  | conflicting _ term _ => term

def members : NamingFault -> List Term
  | unresolved _ members => members
  | conflicting _ _ members => members

def message : NamingFault -> Text
  | unresolved term members =>
      "Type of " ++ term.display ++ " is unresolved: class " ++ Term.displaySet members
        ++ " contains no concrete type"
  | conflicting types term members =>
      "Conflicting types " ++ Text.join " and " (types.map Ground.name) ++ " for "
        ++ term.display ++ " in class " ++ Term.displaySet members

end NamingFault

namespace TermClass

/-- The types among the members, each once and in the order of the members. -/
def grounds (termClass : TermClass) : List Ground :=
  (termClass.members.filterMap Term.ground?).eraseDups

/-- The member that a message mentions: the first that is not a type, if any. -/
def exemplar (termClass : TermClass) : Term :=
  ((termClass.members.find? (fun member => !member.isGround)).or
    termClass.members.head?).getD .int

def type? (termClass : TermClass) : Except NamingFault Ground :=
  match termClass.grounds with
  | [type] => .ok type
  | [] => .error (.unresolved termClass.exemplar termClass.members)
  | types => .error (.conflicting types termClass.exemplar termClass.members)

end TermClass

/-- The types of terms, by their keys. -/
abbrev Naming := Table Text Ground

namespace Naming

/-- Give one type to several terms. -/
def assign (naming : Naming) (type : Ground) (members : List Term) : Naming :=
  members.foldl (fun naming member => naming.insert member.key type) naming

/-- Name classes one after the other; the first that has no type ends the
attempt. -/
def extend (naming : Naming) : List TermClass -> Except NamingFault Naming
  | [] => .ok naming
  | termClass :: rest =>
      match termClass.type? with
      | .error fault => .error fault
      | .ok type => extend (naming.assign type termClass.members) rest

def ofClasses (map : ClassMap) : Except NamingFault Naming :=
  extend .empty map.distinct

end Naming

/-- The classes of some equations and, if every class has a type, their types. -/
structure Solution where
  classes : ClassMap
  naming : Except NamingFault Naming

namespace Solution

def ofEquations (equations : List Equation) : Solution :=
  let classes := ClassMap.ofEquations equations
  { classes := classes, naming := Naming.ofClasses classes }

end Solution

end Monotype
