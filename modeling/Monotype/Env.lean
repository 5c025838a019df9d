import Monotype.Table
import Monotype.Text

namespace Monotype

/-!
Names and what they stand for.

An environment is a list of scopes, the innermost first; a name means what the
innermost scope that holds it says.  A `ScopeTree` keeps many environments that
share their outer scopes: each scope knows the scopes around it, so a name that
is bound late in an outer scope is seen from all scopes inside it.
-/

/-- Scopes from the innermost outwards. -/
abbrev Env (V : Type) := List (Table Text V)

namespace Env

variable {V : Type}

def find? (env : Env V) (name : Text) : Option V :=
  env.findSome? (fun scope => scope.find? name)

/-- A new innermost scope that holds one name. -/
def bind (env : Env V) (name : Text) (value : V) : Env V :=
  (Table.empty.insert name value) :: env

/-- The outermost scope; of two values for one name the later counts. -/
def ofList (pairs : List (Text × V)) : Env V :=
  [Table.ofList pairs]

/-- The bound name stands for its value, and every other name for what it stood
for before. -/
theorem find?_bind (env : Env V) (name probe : Text) (value : V) :
    (env.bind name value).find? probe =
      if name = probe then some value else env.find? probe := by
  have inner := Table.find?_insert (Table.empty : Table Text V) name probe value
  simp only [find?, bind, List.findSome?_cons, inner]
  by_cases same : name = probe
  · simp [same]
  · simp [same, Table.find?, Table.empty, Table.lookup?]

end Env

/-- One scope: the numbers of the scopes around it, nearest first, and the names
that it holds itself. -/
structure Scope (V : Type) where
  around : List Nat := []
  own : Table Text V := .empty

/-- Scopes that share the scopes around them; scope zero is around all others. -/
structure ScopeTree (V : Type) where
  scopes : List (Scope V)

namespace ScopeTree

variable {V : Type}

def root : ScopeTree V where
  scopes := [{}]

/-- The names that a scope holds itself. -/
def own (tree : ScopeTree V) (number : Nat) : Table Text V :=
  match tree.scopes[number]? with
  | some scope => scope.own
  | none => .empty

/-- The numbers of a scope and of the scopes around it. -/
def chain (tree : ScopeTree V) (number : Nat) : List Nat :=
  match tree.scopes[number]? with
  | some scope => number :: scope.around
  | none => []

def env (tree : ScopeTree V) (number : Nat) : Env V :=
  (tree.chain number).map tree.own

/-- A new empty scope inside the given one, and its number. -/
def extend (tree : ScopeTree V) (number : Nat) : Nat × ScopeTree V :=
  (tree.scopes.length, { scopes := tree.scopes ++ [{ around := tree.chain number }] })

/-- Let a name stand for a value in a scope. -/
def bind (tree : ScopeTree V) (number : Nat) (name : Text) (value : V) : ScopeTree V where
  scopes := tree.scopes.modify number
    (fun scope => { scope with own := scope.own.insert name value })

def find? (tree : ScopeTree V) (number : Nat) (name : Text) : Option V :=
  (tree.env number).find? name

end ScopeTree

end Monotype
