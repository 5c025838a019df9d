import Monotype.Text

namespace Monotype

/-!
Types and the terms that stand for them.

There are two types.  A term is one of them, an unknown that was made up for
some node of a program, or the binder of a program name.  Terms are compared by
their keys: two unknowns with one number are the same term whatever their
labels, and the binders of one name are told apart by their indices.
-/

inductive Ground where
  | int | bool
  deriving DecidableEq

namespace Ground

def name : Ground -> Text
  | int => "int"
  | bool => "bool"

end Ground

/-- Something that denotes a type. -/
inductive Term where
  | ground (type : Ground)
  | unknown (number : Int) (label : Text)
  | binder (name : Text) (index : Int)
  deriving DecidableEq

namespace Term

def int : Term := ground .int

def bool : Term := ground .bool

/-- The usual label of the unknown with a given number. -/
def labelOf (number : Int) : Text :=
  "TV_" ++ Text.ofInt number

/-- The unknown with a given number under its usual label. -/
def numbered (number : Int) : Term :=
  unknown number (labelOf number)

/-- What identifies a term.  The first letter tells the three sorts apart. -/
def key : Term -> Text
  | ground type => "c:" ++ type.name
  | unknown number _ => "v:" ++ Text.ofInt number
  | binder name index => "n:" ++ name ++ "#" ++ Text.ofInt index

/-- How a term is shown.  The first binder of a name is shown by the name alone. -/
def display : Term -> Text
  | ground type => type.name
  | unknown _ label => label
  | binder name index => if index = 0 then name else name ++ "#" ++ Text.ofInt index

def same (a b : Term) : Bool :=
  a.key = b.key

def ground? : Term -> Option Ground
  | ground type => some type
  | _ => none

def isGround (term : Term) : Bool :=
  term.ground?.isSome

def displaySet (terms : List Term) : Text :=
  "\x7b" ++ Text.join ", " (terms.map display) ++ "\x7d"

end Term

end Monotype
