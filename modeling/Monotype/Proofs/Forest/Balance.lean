import Monotype.Proofs.Forest.Partition
import Mathlib.Algebra.Group.Nat.Defs
import Mathlib.Data.Finset.Card

namespace Monotype
namespace Forest

variable {A K : Type} {keyOf : A -> K}

/-!
# Forests stay balanced

Ranks grow along every link, so the way from a node up to its root has at most as many links as the
root has rank.  A root only gains a rank when it takes over a set whose root had the same rank, so a
set whose root has rank `n` holds at least `2 ^ n` items.  Shortcuts change neither ranks nor sets,
and an arrival is a set of one item under a root of rank zero.

All operations are seen as one machine: whatever is asked of a forest that was empty at the start,
in whatever order, the forest stays balanced.
-/

/-! ## The way up -/

/-- The way from a node up to the first node that is its own parent, with the number of its links. -/
inductive Way (forest : Forest keyOf) : (links number top : Nat) -> Prop where
  | arrived {number : Nat} (top : forest.parent number = number) : Way forest 0 number number
  | link {links number top : Nat} (linked : forest.parent number ≠ number)
      (further : Way forest links (forest.parent number) top) : Way forest (links + 1) number top

/-- The nodes that are passed on a way, of which there is one for each link. -/
theorem Way.length_ascent {forest : Forest keyOf} {links number top : Nat}
    (way : forest.Way links number top) {steps : Nat} (enough : links ≤ steps) :
    (forest.ascent steps number).length = links := by
  induction way generalizing steps with
  | arrived top =>
      cases steps with
      | zero => rfl
      | succ steps => rw [ascent, if_pos top, List.length_nil]
  | link linked further ih =>
      cases steps with
      | zero => omega
      | succ steps => rw [ascent, if_neg linked, List.length_cons, ih (by omega)]

namespace Sound

variable {forest : Forest keyOf}

/-- Every node has a way up, and each of its links costs a rank. -/
theorem exists_way (sound : forest.Sound) (number : Nat) : exists links,
    forest.Way links number (forest.root number) ∧
      forest.rank number + links ≤ forest.rank (forest.root number) := by
  induction number using sound.upward_induction with
  | root number top =>
      refine ⟨0, ?_, ?_⟩
      · rw [forest.root_of_parent_eq number top]
        exact .arrived top
      · rw [forest.root_of_parent_eq number top]
        exact Nat.le_refl _
  | step number linked ih =>
      rcases ih with ⟨links, way, cost⟩
      have higher := sound.rank_lt number linked
      rw [sound.root_parent number] at way cost
      exact ⟨links + 1, .link linked way, by omega⟩

theorem rank_le_iterate (sound : forest.Sound) (number links : Nat) :
    forest.rank number ≤ forest.rank (forest.parent^[links] number) := by
  induction links with
  | zero => exact Nat.le_refl _
  | succ links ih =>
      rw [Function.iterate_succ_apply']
      by_cases top : forest.parent (forest.parent^[links] number) = forest.parent^[links] number
      · rwa [top]
      · exact Nat.le_trans ih (Nat.le_of_lt (sound.rank_lt _ top))

/-- No links lead from a node back to it. -/
theorem acyclic (sound : forest.Sound) (number links : Nat)
    (back : forest.parent^[links + 1] number = number) : forest.parent number = number := by
  apply Classical.byContradiction
  intro linked
  have higher := sound.rank_lt number linked
  have further := sound.rank_le_iterate (forest.parent number) links
  rw [← Function.iterate_succ_apply, back] at further
  exact Nat.not_lt_of_le further higher

end Sound

/-! ## The items of a set -/

/-- The numbers of the items below a root. -/
def below (forest : Forest keyOf) (top : Nat) : Finset Nat :=
  {number ∈ Finset.range forest.size | forest.root number = top}

theorem mem_below (forest : Forest keyOf) (number top : Nat) :
    number ∈ forest.below top ↔ number < forest.size ∧ forest.root number = top := by
  rw [below, Finset.mem_filter, Finset.mem_range]

/-- Every root stands above enough items for its rank. -/
def Weighted (forest : Forest keyOf) : Prop :=
  forall top, top < forest.size -> forest.parent top = top ->
    2 ^ forest.rank top ≤ (forest.below top).card

/-- No root has a rank as high as there are items. -/
theorem Weighted.rank_lt_size {forest : Forest keyOf} (weighted : forest.Weighted) {top : Nat}
    (inside : top < forest.size) (atTop : forest.parent top = top) : forest.rank top < forest.size :=
  calc forest.rank top < 2 ^ forest.rank top := Nat.lt_two_pow_self
    _ ≤ (forest.below top).card := weighted top inside atTop
    _ ≤ (Finset.range forest.size).card := Finset.card_filter_le _ _
    _ = forest.size := Finset.card_range _

theorem weighted_empty : ({} : Forest keyOf).Weighted := by
  intro top inside
  cases inside

namespace Alike

variable {forest other : Forest keyOf}

theorem size_eq (alike : Alike forest other) : other.size = forest.size := by
  rw [← length_items, ← length_items, alike.items_eq]

theorem below_eq (alike : Alike forest other) (top : Nat) : other.below top = forest.below top := by
  apply Finset.ext
  intro number
  rw [mem_below, mem_below, alike.size_eq, alike.root_eq]

theorem weighted (alike : Alike forest other) (sound : forest.Sound) (weighted : forest.Weighted) :
    other.Weighted := by
  intro top inside atTop
  rw [alike.size_eq] at inside
  rw [← alike.sound.root_eq_self_iff, alike.root_eq, sound.root_eq_self_iff] at atTop
  rw [alike.rank_eq, alike.below_eq]
  exact weighted top inside atTop

end Alike

theorem rank_of_size_le (forest : Forest keyOf) (number : Nat) (outside : forest.size ≤ number) :
    forest.rank number = 0 := by
  have absent : forest.nodes[number]? = none := Array.getElem?_eq_none outside
  rw [rank, absent]

theorem rank_merge (forest : Forest keyOf) {first second : Nat} (inside : first < forest.size)
    (number : Nat) : (forest.merge first second).rank number =
      if number = first ∧ forest.rank first = forest.rank second then forest.rank first + 1
      else forest.rank number := by
  rw [merge]
  by_cases firstLower : forest.rank first < forest.rank second
  · rw [if_pos firstLower, rank_link, if_neg (fun both => by omega)]
  · rw [if_neg firstLower]
    by_cases secondLower : forest.rank second < forest.rank first
    · rw [if_pos secondLower, rank_link, if_neg (fun both => by omega)]
    · have same : forest.rank first = forest.rank second := by omega
      rw [if_neg secondLower, rank_promote _ _ _ _ (by rwa [size_link]), rank_link]
      simp only [same, and_true]

namespace Weighted

variable {forest : Forest keyOf}

/-- The root that is left by a merge stands above the items of both sets, and its rank grows by one
at most, and only between equals. -/
theorem merge (weighted : forest.Weighted) (sound : forest.Sound) {first second : Nat}
    (firstTop : forest.parent first = first) (secondTop : forest.parent second = second)
    (firstInside : first < forest.size) (secondInside : second < forest.size)
    (different : first ≠ second) : (forest.merge first second).Weighted := by
  rcases sound.merge first second firstTop secondTop firstInside secondInside different with
    ⟨merged, items_eq, winner, isWinner, root_eq⟩
  have size_eq : (forest.merge first second).size = forest.size := by
    rw [← length_items, ← length_items, items_eq]
  intro top inside atTop
  rw [size_eq] at inside
  rw [← merged.root_eq_self_iff, root_eq] at atTop
  by_cases taken : forest.root top = first ∨ forest.root top = second
  · rw [if_pos taken] at atTop
    subst atTop
    have both : forest.below first ∪ forest.below second ⊆ (forest.merge first second).below winner := by
      intro number member
      rw [Finset.mem_union, mem_below, mem_below] at member
      rw [mem_below, size_eq, root_eq]
      rcases member with ⟨within, isFirst⟩ | ⟨within, isSecond⟩
      · exact ⟨within, if_pos (Or.inl isFirst)⟩
      · exact ⟨within, if_pos (Or.inr isSecond)⟩
    have apart : Disjoint (forest.below first) (forest.below second) := by
      rw [Finset.disjoint_left]
      intro number inFirst inSecond
      rw [mem_below] at inFirst inSecond
      exact different (inFirst.2.symm.trans inSecond.2)
    have enough := Finset.card_le_card both
    rw [Finset.card_union_of_disjoint apart] at enough
    have firstEnough := weighted first firstInside firstTop
    have secondEnough := weighted second secondInside secondTop
    rw [rank_merge forest firstInside]
    by_cases gains : winner = first ∧ forest.rank first = forest.rank second
    · rw [if_pos gains, Nat.pow_succ]
      rw [← gains.2] at secondEnough
      omega
    · rw [if_neg gains]
      rcases isWinner with rfl | rfl <;> omega
  · rw [if_neg taken] at atTop
    rw [not_or, atTop] at taken
    have kept : forest.below top ⊆ (forest.merge first second).below top := by
      intro number member
      rw [mem_below] at member
      rw [mem_below, size_eq, root_eq, member.2, if_neg (not_or.mpr taken)]
      exact ⟨member.1, rfl⟩
    rw [rank_merge forest firstInside, if_neg (fun both => taken.1 both.1)]
    have enough := weighted top inside ((sound.root_eq_self_iff top).mp atTop)
    exact Nat.le_trans enough (Finset.card_le_card kept)

variable [DecidableEq K]

/-- An arrival stands above itself. -/
theorem add (weighted : forest.Weighted) (sound : forest.Sound) (a : A) :
    (forest.add a).2.Weighted := by
  intro top inside atTop
  rw [parent_add] at atTop
  rw [rank_add]
  by_cases old : top < forest.size
  · have kept : forest.below top ⊆ (forest.add a).2.below top := by
      intro number member
      rw [mem_below] at member ⊢
      rw [sound.root_add]
      exact ⟨Nat.lt_of_lt_of_le member.1 (forest.size_le_size_add a), member.2⟩
    exact Nat.le_trans (weighted top old atTop) (Finset.card_le_card kept)
  · rw [forest.rank_of_size_le top (Nat.le_of_not_lt old)]
    apply Finset.card_pos.mpr
    refine ⟨top, (mem_below _ _ _).mpr ⟨inside, ?_⟩⟩
    rw [sound.root_add, forest.root_of_parent_eq top atTop]

end Weighted

section Keys

variable [DecidableEq K]

theorem Weighted.union {forest : Forest keyOf} (weighted : forest.Weighted) (sound : forest.Sound)
    (a b : A) : (forest.union a b).2.Weighted := by
  rcases sound.union_cases a b with ⟨ready, rootA, rootB, isReady, union_eq⟩
  have readySound := isReady.alike.sound
  have readyWeighted : ready.Weighted :=
    isReady.alike.weighted ((sound.add a).add b) ((weighted.add sound a).add (sound.add a) b)
  rw [union_eq]
  by_cases same : rootA = rootB
  · rwa [if_pos same]
  · rw [if_neg same]
    have topA := readySound.parent_of_representative isReady.representative_a
    have topB := readySound.parent_of_representative isReady.representative_b
    exact readyWeighted.merge readySound topA.1 topB.1 topA.2 topB.2 same

/-- A question whether two items are in one set moves no root. -/
theorem Sound.alike_connected {forest : Forest keyOf} (sound : forest.Sound) (a b : A) :
    Alike forest (forest.connected a b).2 := by
  rw [connected]
  split
  · next numberA numberB _ _ =>
      have first := sound.alike_find numberA
      exact first.trans (first.sound.alike_find numberB)
  · exact Alike.refl sound

/-! ## Any number of operations -/

/-- What a forest can be asked to do. -/
inductive Operation (A : Type) where
  | add (a : A)
  | has (a : A)
  | find (number : Int)
  | union (a b : A)
  | connected (a b : A)
  | visit

/-- What a forest answers; a refusal comes with its wording. -/
inductive Answer (A : Type) where
  | number (value : Nat)
  | truth (value : Bool)
  | visits (items : List (A × Nat))
  | refusal (message : Text)

/-- The items that an operation adds when it sees them for the first time. -/
def Operation.arrivals : Operation A -> List A
  | add a => [a]
  | has _ => []
  | find _ => []
  | union a b => [a, b]
  | connected _ _ => []
  | visit => []

/-- Carry out an operation: its answer, and the forest behind it. -/
def perform (forest : Forest keyOf) : Operation A -> Answer A × Forest keyOf
  | .add a => (forest.add a).map .number id
  | .has a => (.truth (forest.has a), forest)
  | .find number =>
      match forest.find? number with
      | some found => found.map .number id
      | none => (.refusal (outOfRange number), forest)
  | .union a b => (forest.union a b).map .truth id
  | .connected a b => (forest.connected a b).map .truth id
  | .visit => forest.visit.map .visits id

theorem perform_find (forest : Forest keyOf) {number : Int} (inside : 0 ≤ number ∧ number < forest.size) :
    forest.perform (.find number) =
      (.number (forest.root number.toNat), (forest.find number.toNat).2) := by
  rw [perform, find?, if_pos inside]
  rfl

/-- A number without a node is refused, and nothing changes. -/
theorem perform_find_of_outside (forest : Forest keyOf) {number : Int}
    (outside : ¬ (0 ≤ number ∧ number < forest.size)) :
    forest.perform (.find number) = (.refusal (outOfRange number), forest) := by
  rw [perform, find?, if_neg outside]

def run (keyOf : A -> K) (operations : List (Operation A)) : Forest keyOf :=
  operations.foldl (fun forest operation => (forest.perform operation).2) {}

/-- What holds between any two operations, when the given items have arrived. -/
structure Kept (forest : Forest keyOf) (arrivals : List A) : Prop where
  sound : forest.Sound
  weighted : forest.Weighted
  items_eq : forest.items = firstOfEach keyOf arrivals

namespace Kept

variable {forest other : Forest keyOf} {arrivals : List A}

theorem empty : ({} : Forest keyOf).Kept [] :=
  ⟨StandsFor.empty.sound, weighted_empty, rfl⟩

theorem alike (kept : forest.Kept arrivals) (alike : Alike forest other) : other.Kept arrivals :=
  ⟨alike.sound, alike.weighted kept.sound kept.weighted, alike.items_eq.trans kept.items_eq⟩

theorem add (kept : forest.Kept arrivals) (a : A) : (forest.add a).2.Kept (arrivals ++ [a]) where
  sound := kept.sound.add a
  weighted := kept.weighted.add kept.sound a
  items_eq := by rw [items_add, kept.items_eq, firstOfEach_concat]

theorem union (kept : forest.Kept arrivals) (a b : A) :
    (forest.union a b).2.Kept (arrivals ++ [a, b]) where
  sound := (kept.sound.union a b).1.sound
  weighted := kept.weighted.union kept.sound a b
  items_eq := by
    rw [(kept.sound.union a b).1.items_eq, ((kept.add a).add b).items_eq, List.append_assoc]
    rfl

/-- One operation. -/
theorem perform (kept : forest.Kept arrivals) (operation : Operation A) :
    (forest.perform operation).2.Kept (arrivals ++ operation.arrivals) := by
  cases operation with
  | add a => exact kept.add a
  | union a b => exact kept.union a b
  | has a => rwa [Operation.arrivals, List.append_nil]
  | find number =>
      rw [Operation.arrivals, List.append_nil]
      by_cases inside : 0 ≤ number ∧ number < forest.size
      · rw [perform_find _ inside]
        exact kept.alike (kept.sound.alike_find number.toNat)
      · rwa [perform_find_of_outside _ inside]
  | connected a b =>
      rw [Operation.arrivals, List.append_nil]
      exact kept.alike (kept.sound.alike_connected a b)
  | visit =>
      rw [Operation.arrivals, List.append_nil]
      exact kept.alike kept.sound.visit.2

/-- Any number of operations. -/
theorem foldl (kept : forest.Kept arrivals) (operations : List (Operation A)) :
    (operations.foldl (fun forest operation => (forest.perform operation).2) forest).Kept
      (arrivals ++ operations.flatMap Operation.arrivals) := by
  induction operations generalizing forest arrivals with
  | nil => rwa [List.flatMap_nil, List.append_nil]
  | cons operation rest ih =>
      rw [List.foldl_cons, List.flatMap_cons, ← List.append_assoc]
      exact ih (kept.perform operation)

end Kept

/-! ## Balanced forests -/

def parents (forest : Forest keyOf) : List Nat :=
  forest.nodes.toList.map Node.parent

def ranks (forest : Forest keyOf) : List Nat :=
  forest.nodes.toList.map Node.rank

/-- A forest into which the given items have come, as its user may rely on it.  The first fields say
that every key seen has a number of its own and no number is left over; the next ones, that the links
stay inside, climb in rank and lead to a root in few steps; the last one, that a number without a
node is refused and nothing changes. -/
structure Balanced (forest : Forest keyOf) (arrivals : List A) : Prop where
  lengths : forest.items.length = forest.size ∧ forest.parents.length = forest.size ∧
    forest.ranks.length = forest.size
  seen_iff : forall key, key ∈ arrivals.map keyOf ↔ exists number, forest.index? key = some number
  used_iff : forall number, number < forest.size ↔ exists key, forest.index? key = some number
  index_injective : forall key other number, forest.index? key = some number ->
    forest.index? other = some number -> key = other
  item_first : forall key number, forest.index? key = some number -> exists a,
    forest.items[number]? = some a ∧ arrivals.find? (fun b => keyOf b = key) = some a
  parent_lt : forall number, number < forest.size -> forest.parent number < forest.size
  rank_lt : forall number, forest.parent number ≠ number ->
    forest.rank number < forest.rank (forest.parent number)
  acyclic : forall number links, forest.parent^[links + 1] number = number ->
    forest.parent number = number
  found : forall number, number < forest.size -> exists links top shorter,
    forest.Way links number top ∧ links ≤ forest.rank top ∧
      (forest.ascent forest.size number).length = links ∧
      forest.find? number = some (top, shorter)
  weighted : forall top, top < forest.size -> forest.parent top = top ->
    2 ^ forest.rank top ≤ (forest.below top).card
  refused : forall number : Int, ¬ (0 ≤ number ∧ number < forest.size) ->
    forest.perform (.find number) = (.refusal (outOfRange number), forest)

namespace Kept

variable {forest : Forest keyOf} {arrivals : List A}

theorem seen_iff (kept : forest.Kept arrivals) (key : K) :
    key ∈ arrivals.map keyOf ↔ exists number, forest.index? key = some number := by
  rw [← mem_map_firstOfEach, ← kept.items_eq]
  have absent := forest.index?_eq_none_iff key
  cases found : forest.index? key with
  | none => simp [absent.mp found]
  | some number =>
      refine iff_of_true ?_ ⟨number, rfl⟩
      apply Classical.byContradiction
      intro missing
      rw [absent.mpr missing] at found
      cases found

/-- The item with the number of a key is the first that arrived under this key. -/
theorem item_first (kept : forest.Kept arrivals) {key : K} {number : Nat}
    (indexed : forest.index? key = some number) : exists a,
      forest.items[number]? = some a ∧ arrivals.find? (fun b => keyOf b = key) = some a := by
  have keyed := (kept.sound.index?_eq_some_iff key number).mp indexed
  rw [List.getElem?_map] at keyed
  rcases Option.map_eq_some_iff.mp keyed with ⟨a, item, rfl⟩
  refine ⟨a, item, ?_⟩
  have among : a ∈ firstOfEach keyOf arrivals := kept.items_eq ▸ List.mem_of_getElem? item
  have first := Kinds.head?_filter_of_mem_eraseDupsBy
    (fun later earlier => decide (keyOf later = keyOf earlier)) (fun _ => decide_eq_true rfl)
    (fun _ _ _ one two => decide_eq_true ((of_decide_eq_true one).trans (of_decide_eq_true two)))
    arrivals a among
  rw [List.head?_filter] at first
  simpa only [eq_comm] using first

theorem balanced (kept : forest.Kept arrivals) : forest.Balanced arrivals where
  lengths := by simp [parents, ranks, size]
  seen_iff := kept.seen_iff
  used_iff number := by
    constructor
    · intro inside
      rw [← length_items] at inside
      exact ⟨_, kept.sound.index?_getElem number inside⟩
    · rintro ⟨key, indexed⟩
      exact kept.sound.lt_size_of_index? indexed
  index_injective key other number indexed otherIndexed := by
    have first := (kept.sound.index?_eq_some_iff key number).mp indexed
    have second := (kept.sound.index?_eq_some_iff other number).mp otherIndexed
    exact Option.some.inj (first.symm.trans second)
  item_first _ _ := kept.item_first
  parent_lt := kept.sound.parent_lt
  rank_lt := kept.sound.rank_lt
  acyclic := kept.sound.acyclic
  found number inside := by
    rcases kept.sound.exists_way number with ⟨links, way, cost⟩
    have bound := kept.weighted.rank_lt_size (kept.sound.root_lt number inside)
      (kept.sound.parent_root number)
    have passed : (forest.ascent forest.size number).length = links := way.length_ascent (by omega)
    refine ⟨links, forest.root number, forest.compress number, way, by omega, passed, ?_⟩
    rw [find?, if_pos ⟨Int.natCast_nonneg number, Int.ofNat_lt.mpr inside⟩]
    rfl
  weighted := kept.weighted
  refused _ := forest.perform_find_of_outside

end Kept

/-- Whatever is asked of a forest that was empty at the start, and whatever the keys of its items, it
stays balanced. -/
theorem run_balanced (keyOf : A -> K) (operations : List (Operation A)) :
    (run keyOf operations).Balanced (operations.flatMap Operation.arrivals) :=
  (Kept.empty.foldl operations).balanced

-- Four items are the fewest for a root of rank two.
example : (run (fun item : Nat => item) [.union 1 2, .union 3 4, .union 2 4]).ranks = [2, 0, 1, 0] := by
  decide +kernel

end Keys

end Forest
end Monotype
