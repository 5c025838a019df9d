import Monotype.Text

namespace Monotype

/-!
Sets of items that are merged over time.

A forest holds items in the order in which they were first seen and groups them
into disjoint sets.  Items are told apart by their keys only: of several items
with one key the first is kept.  Every node points at a parent, and following
parents leads to the root that represents the set.  A merge hangs the root of
lower rank below the other; between equal ranks the first argument's root stays
and gains a rank.  Finding a root shortens the way for the next time by letting
every node that was passed point straight at the root.

Ranks grow along every link, so a way up never has more links than there are
nodes.  That number bounds the search in `climb` and `ascent`.
-/

namespace Forest

/-- An item with its key, a link to its parent, and a bound on the height below
it.  A root is its own parent. -/
structure Node {A K : Type} (keyOf : A -> K) where
  item : A
  key : K
  parent : Nat
  rank : Nat
  key_eq : key = keyOf item

end Forest

/-- Items in the order of their arrival, grouped into disjoint sets. -/
structure Forest {A K : Type} (keyOf : A -> K) where
  nodes : Array (Forest.Node keyOf) := #[]

namespace Forest

variable {A K : Type} {keyOf : A -> K}

def size (forest : Forest keyOf) : Nat :=
  forest.nodes.size

def items (forest : Forest keyOf) : List A :=
  forest.nodes.toList.map Node.item

/-- The parent of a node; a number without a node is its own parent. -/
def parent (forest : Forest keyOf) (number : Nat) : Nat :=
  match forest.nodes[number]? with
  | some node => node.parent
  | none => number

def rank (forest : Forest keyOf) (number : Nat) : Nat :=
  match forest.nodes[number]? with
  | some node => node.rank
  | none => 0

/-- Let a node point at another parent. -/
def link (forest : Forest keyOf) (number parent : Nat) : Forest keyOf where
  nodes := forest.nodes.modify number (fun node => { node with parent := parent })

def promote (forest : Forest keyOf) (number rank : Nat) : Forest keyOf where
  nodes := forest.nodes.modify number (fun node => { node with rank := rank })

/-- Where following at most `steps` links leads. -/
def climb (forest : Forest keyOf) : (steps : Nat) -> Nat -> Nat
  | 0, number => number
  | steps + 1, number =>
      if forest.parent number = number then number
      else climb forest steps (forest.parent number)

/-- The nodes passed while following at most `steps` links, without the last. -/
def ascent (forest : Forest keyOf) : (steps : Nat) -> Nat -> List Nat
  | 0, _ => []
  | steps + 1, number =>
      if forest.parent number = number then []
      else number :: ascent forest steps (forest.parent number)

def root (forest : Forest keyOf) (number : Nat) : Nat :=
  forest.climb forest.size number

/-- Let every node on the way up point straight at the root. -/
def compress (forest : Forest keyOf) (number : Nat) : Forest keyOf :=
  (forest.ascent forest.size number).foldl
    (fun shorter passed => shorter.link passed (forest.root number)) forest

/-- The root above a node, and the forest with the way to it shortened. -/
def find (forest : Forest keyOf) (number : Nat) : Nat × Forest keyOf :=
  (forest.root number, forest.compress number)

/-- As `find`, for any integer; `none` if there is no node of that number. -/
def find? (forest : Forest keyOf) (number : Int) : Option (Nat × Forest keyOf) :=
  if 0 ≤ number ∧ number < forest.size then some (forest.find number.toNat) else none

def outOfRange (number : Int) : Text :=
  "Disjoint-set index " ++ Text.ofInt number ++ " out of range"

/-- The roots above the given nodes in turn. -/
def findAll (forest : Forest keyOf) : List Nat -> List Nat × Forest keyOf
  | [] => ([], forest)
  | number :: rest =>
      let (root, forest) := forest.find number
      let (roots, forest) := findAll forest rest
      (root :: roots, forest)

/-- Every item in the order of arrival, with the root of its set. -/
def visit (forest : Forest keyOf) : List (A × Nat) × Forest keyOf :=
  let (roots, shorter) := forest.findAll (List.range forest.size)
  (forest.items.zip roots, shorter)

variable [DecidableEq K]

def index? (forest : Forest keyOf) (key : K) : Option Nat :=
  forest.nodes.findIdx? (fun node => node.key = key)

/-- Whether an item with the key of `a` has been seen. -/
def has (forest : Forest keyOf) (a : A) : Bool :=
  (forest.index? (keyOf a)).isSome

/-- The number of an item, which becomes a set of its own when first seen. -/
def add (forest : Forest keyOf) (a : A) : Nat × Forest keyOf :=
  match forest.index? (keyOf a) with
  | some number => (number, forest)
  | none =>
      let node : Node keyOf :=
        { item := a, key := keyOf a, parent := forest.size, rank := 0, key_eq := rfl }
      (forest.size, { nodes := forest.nodes.push node })

/-- Merge the sets below two different roots. -/
def merge (forest : Forest keyOf) (first second : Nat) : Forest keyOf :=
  if forest.rank first < forest.rank second then forest.link first second
  else if forest.rank second < forest.rank first then forest.link second first
  else (forest.link second first).promote first (forest.rank first + 1)

/-- Merge the sets of two items, adding either when first seen.  The answer is
whether they were in different sets. -/
def union (forest : Forest keyOf) (a b : A) : Bool × Forest keyOf :=
  let (numberA, forest) := forest.add a
  let (rootA, forest) := forest.find numberA
  let (numberB, forest) := forest.add b
  let (rootB, forest) := forest.find numberB
  if rootA = rootB then (false, forest) else (true, forest.merge rootA rootB)

/-- Whether two items are in one set.  An item that has not been seen is in one
set with itself only, and asking does not add it. -/
def connected (forest : Forest keyOf) (a b : A) : Bool × Forest keyOf :=
  match forest.index? (keyOf a), forest.index? (keyOf b) with
  | some numberA, some numberB =>
      let (rootA, forest) := forest.find numberA
      let (rootB, forest) := forest.find numberB
      (rootA = rootB, forest)
  | _, _ => (keyOf a = keyOf b, forest)

end Forest

end Monotype
