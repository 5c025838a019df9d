import Monotype.Proofs.Forest.Root
import Monotype.Proofs.Kinds
import Mathlib.Logic.Relation

namespace Monotype
namespace Forest

variable {A K : Type} {keyOf : A -> K}

/-!
# The partition that a forest stands for

A history is a list of arrivals and a list of pairs that were united.  A forest
stands for a history if its items are the first arrivals of each key, in order,
and if it represents two keys alike exactly when the pairs connect them.  A key
that never arrived represents itself, so the statement covers all keys, and an
arrival needs no fact about the pairs.
-/

/-- The first arrival of each key, in order of arrival. -/
def firstOfEach [DecidableEq K] (keyOf : A -> K) (arrivals : List A) : List A :=
  arrivals.eraseDupsBy (fun later earlier => decide (keyOf later = keyOf earlier))

/-- The keys of a pair that was united. -/
def Joined (keyOf : A -> K) (pairs : List (A × A)) (left right : K) : Prop :=
  exists pair, pair ∈ pairs ∧ keyOf pair.1 = left ∧ keyOf pair.2 = right

/-- The equivalence closure of the united pairs, between keys. -/
def Connected (keyOf : A -> K) (pairs : List (A × A)) : K -> K -> Prop :=
  Relation.EqvGen (Joined keyOf pairs)

namespace Connected

variable {pairs more : List (A × A)} {left middle right : K}

theorem refl (key : K) : Connected keyOf pairs key key :=
  Relation.EqvGen.refl key

theorem symm (connected : Connected keyOf pairs left right) : Connected keyOf pairs right left :=
  Relation.EqvGen.symm left right connected

theorem trans (first : Connected keyOf pairs left middle) (second : Connected keyOf pairs middle right) :
    Connected keyOf pairs left right :=
  Relation.EqvGen.trans left middle right first second

theorem of_mem {a b : A} (member : (a, b) ∈ pairs) : Connected keyOf pairs (keyOf a) (keyOf b) :=
  Relation.EqvGen.rel _ _ ⟨(a, b), member, rfl, rfl⟩

/-- A function that is constant on united pairs is constant on connected keys. -/
theorem congr {B : Type} (value : K -> B)
    (agrees : forall pair, pair ∈ pairs -> value (keyOf pair.1) = value (keyOf pair.2))
    (connected : Connected keyOf pairs left right) : value left = value right := by
  induction connected with
  | rel left right joined =>
      rcases joined with ⟨pair, member, rfl, rfl⟩
      exact agrees pair member
  | refl _ => rfl
  | symm _ _ _ ih => exact ih.symm
  | trans _ _ _ _ _ first second => exact first.trans second

theorem mono (subset : forall pair, pair ∈ pairs -> pair ∈ more)
    (connected : Connected keyOf pairs left right) : Connected keyOf more left right := by
  induction connected with
  | rel left right joined =>
      rcases joined with ⟨pair, member, equal⟩
      exact Relation.EqvGen.rel left right ⟨pair, subset pair member, equal⟩
  | refl key => exact refl key
  | symm _ _ _ ih => exact ih.symm
  | trans _ _ _ _ _ first second => exact first.trans second

end Connected

/-! ## First arrivals -/

section Keys

variable [DecidableEq K]

theorem firstOfEach_concat (arrivals : List A) (last : A) :
    firstOfEach keyOf (arrivals ++ [last]) =
      if keyOf last ∈ (firstOfEach keyOf arrivals).map keyOf then firstOfEach keyOf arrivals
      else firstOfEach keyOf arrivals ++ [last] := by
  have step : firstOfEach keyOf (arrivals ++ [last]) =
      if (firstOfEach keyOf arrivals).any (fun earlier => decide (keyOf last = keyOf earlier))
      then firstOfEach keyOf arrivals else firstOfEach keyOf arrivals ++ [last] :=
    Kinds.eraseDupsBy_concat _ arrivals last
  have known : (firstOfEach keyOf arrivals).any (fun earlier => decide (keyOf last = keyOf earlier)) =
      true ↔ keyOf last ∈ (firstOfEach keyOf arrivals).map keyOf := by
    simp only [List.any_eq_true, decide_eq_true_eq, List.mem_map, @eq_comm K (keyOf last)]
  rw [step]
  by_cases present : keyOf last ∈ (firstOfEach keyOf arrivals).map keyOf
  · rw [if_pos present, if_pos (known.mpr present)]
  · rw [if_neg present, if_neg (fun found => present (known.mp found))]

/-- Only repetitions of a key are left out. -/
theorem mem_map_firstOfEach (arrivals : List A) (key : K) :
    key ∈ (firstOfEach keyOf arrivals).map keyOf ↔ key ∈ arrivals.map keyOf := by
  constructor
  · intro member
    rcases List.mem_map.mp member with ⟨a, kept, rfl⟩
    exact List.mem_map.mpr ⟨a, Kinds.mem_of_mem_eraseDupsBy _ arrivals a kept, rfl⟩
  · intro member
    rcases List.mem_map.mp member with ⟨a, arrived, rfl⟩
    have first := Kinds.exists_mem_eraseDupsBy
      (fun later earlier => decide (keyOf later = keyOf earlier))
      (fun value => decide_eq_true rfl) arrivals a arrived
    rcases first with ⟨b, kept, same⟩
    exact List.mem_map.mpr ⟨b, kept, (of_decide_eq_true same).symm⟩

/-! ## The number of a key -/

theorem index?_eq_findIdx? (forest : Forest keyOf) (key : K) :
    forest.index? key = (forest.items.map keyOf).findIdx? (fun other => other = key) := by
  have keys_eq : forest.items.map keyOf = forest.nodes.toList.map Node.key := by
    rw [items, List.map_map]
    exact List.map_congr_left (fun node _ => node.key_eq.symm)
  rw [keys_eq, List.findIdx?_map, ← List.findIdx?_toArray]
  rfl

theorem index?_congr {forest other : Forest keyOf} (items_eq : other.items = forest.items) (key : K) :
    other.index? key = forest.index? key := by
  rw [index?_eq_findIdx?, index?_eq_findIdx?, items_eq]

theorem index?_eq_none_iff (forest : Forest keyOf) (key : K) :
    forest.index? key = none ↔ key ∉ forest.items.map keyOf := by
  rw [index?_eq_findIdx?, List.findIdx?_eq_none_iff]
  constructor
  · intro absent present
    have different := absent key present
    simp at different
  · intro absent other present
    apply decide_eq_false
    intro same
    exact absent (same ▸ present)

theorem Sound.index?_eq_some_iff {forest : Forest keyOf} (sound : forest.Sound) (key : K)
    (number : Nat) :
    forest.index? key = some number ↔ (forest.items.map keyOf)[number]? = some key := by
  rw [index?_eq_findIdx?, List.findIdx?_eq_some_iff_getElem]
  constructor
  · rintro ⟨inside, same, _⟩
    rw [List.getElem?_eq_getElem inside, of_decide_eq_true same]
  · intro found
    rcases List.getElem?_eq_some_iff.mp found with ⟨inside, same⟩
    refine ⟨inside, decide_eq_true same, ?_⟩
    intro earlier before
    have different := (List.nodup_iff_getElem?_ne_getElem?.mp sound.keys_nodup) earlier number before inside
    intro equal
    apply different
    rw [found, List.getElem?_eq_getElem (Nat.lt_trans before inside), of_decide_eq_true equal]

theorem Sound.lt_size_of_index? {forest : Forest keyOf} (sound : forest.Sound) {key : K} {number : Nat}
    (found : forest.index? key = some number) : number < forest.size := by
  have present := (sound.index?_eq_some_iff key number).mp found
  have inside := (List.getElem?_eq_some_iff.mp present).1
  rwa [List.length_map, length_items] at inside

/-! ## Arrivals -/

theorem items_add (forest : Forest keyOf) (a : A) :
    (forest.add a).2.items =
      if keyOf a ∈ forest.items.map keyOf then forest.items else forest.items ++ [a] := by
  rw [add]
  cases found : forest.index? (keyOf a) with
  | some number =>
      have present : keyOf a ∈ forest.items.map keyOf := by
        apply Classical.byContradiction
        intro absent
        rw [(forest.index?_eq_none_iff (keyOf a)).mpr absent] at found
        cases found
      rw [if_pos present]
  | none =>
      rw [if_neg ((forest.index?_eq_none_iff (keyOf a)).mp found)]
      simp [items]

theorem parent_add (forest : Forest keyOf) (a : A) (number : Nat) :
    (forest.add a).2.parent number = forest.parent number := by
  rw [add]
  cases forest.index? (keyOf a) with
  | some _ => rfl
  | none =>
      simp only [parent, Array.getElem?_push]
      by_cases last : number = forest.nodes.size
      · simp [last, size]
      · simp [last]

theorem rank_add (forest : Forest keyOf) (a : A) (number : Nat) :
    (forest.add a).2.rank number = forest.rank number := by
  rw [add]
  cases forest.index? (keyOf a) with
  | some _ => rfl
  | none =>
      simp only [rank, Array.getElem?_push]
      by_cases last : number = forest.nodes.size
      · simp [last]
      · simp [last]

theorem size_le_size_add (forest : Forest keyOf) (a : A) :
    forest.size ≤ (forest.add a).2.size := by
  rw [← length_items, ← length_items, items_add]
  by_cases present : keyOf a ∈ forest.items.map keyOf
  · simp only [present, if_true, Nat.le_refl]
  · rw [if_neg present, List.length_append]
    exact Nat.le_add_right _ _

namespace Sound

variable {forest : Forest keyOf}

/-- An arrival is a set of its own and changes no link. -/
theorem add (sound : forest.Sound) (a : A) : (forest.add a).2.Sound := by
  refine ⟨?_, ?_, ?_⟩
  · intro number inside
    rw [parent_add]
    by_cases old : number < forest.size
    · exact Nat.lt_of_lt_of_le (sound.parent_lt number old) (forest.size_le_size_add a)
    · rwa [forest.parent_of_size_le number (Nat.le_of_not_lt old)]
  · intro number linked
    rw [parent_add] at linked ⊢
    rw [rank_add, rank_add]
    exact sound.rank_lt number linked
  · rw [items_add]
    by_cases present : keyOf a ∈ forest.items.map keyOf
    · rw [if_pos present]
      exact sound.keys_nodup
    · rw [if_neg present, List.map_append]
      exact List.nodup_append.mpr ⟨sound.keys_nodup, by simp, by
        intro key member other single equal
        rw [List.map_singleton, List.mem_singleton] at single
        exact present (single ▸ equal ▸ member)⟩

theorem root_add (sound : forest.Sound) (a : A) (number : Nat) :
    (forest.add a).2.root number = forest.root number :=
  sound.root_congr (sound.add a) (forest.parent_add a) number

theorem index?_add_of_some (sound : forest.Sound) (a : A) {key : K} {number : Nat}
    (found : forest.index? key = some number) : (forest.add a).2.index? key = some number := by
  rw [(sound.add a).index?_eq_some_iff, items_add]
  rw [sound.index?_eq_some_iff] at found
  by_cases present : keyOf a ∈ forest.items.map keyOf
  · rwa [if_pos present]
  · rw [if_neg present, List.map_append,
      List.getElem?_append_left (List.getElem?_eq_some_iff.mp found).1]
    exact found

/-- An item has the number that its arrival was answered with. -/
theorem index?_add (sound : forest.Sound) (a : A) :
    (forest.add a).2.index? (keyOf a) = some (forest.add a).1 := by
  cases found : forest.index? (keyOf a) with
  | some number =>
      rw [sound.index?_add_of_some a found]
      simp [Forest.add, found]
  | none =>
      have absent := (forest.index?_eq_none_iff (keyOf a)).mp found
      have number_eq : (forest.add a).1 = (forest.items.map keyOf).length := by
        simp [Forest.add, found]
      rw [(sound.add a).index?_eq_some_iff, items_add, if_neg absent, number_eq, List.map_append,
        List.getElem?_append_right (Nat.le_refl _), Nat.sub_self]
      rfl

end Sound

/-- What an item is answered with on its arrival depends on the items alone. -/
theorem add_fst_congr {forest other : Forest keyOf} (items_eq : other.items = forest.items) (a : A) :
    (other.add a).1 = (forest.add a).1 := by
  have size_eq : other.size = forest.size := by
    rw [← length_items, ← length_items, items_eq]
  rw [add, add, index?_congr items_eq]
  cases forest.index? (keyOf a) with
  | some number => rfl
  | none => exact size_eq

/-- Forests that differ in the ways to their roots only still do so after an arrival. -/
theorem Alike.add {forest other : Forest keyOf} (alike : Alike forest other) (sound : forest.Sound)
    (a : A) : Alike (forest.add a).2 (other.add a).2 where
  sound := alike.sound.add a
  items_eq := by rw [items_add, items_add, alike.items_eq]
  rank_eq number := by rw [rank_add, rank_add, alike.rank_eq]
  root_eq number := by rw [sound.root_add, alike.sound.root_add, alike.root_eq]

/-! ## Representatives -/

/-- The root of a key that has arrived; any other key stands for itself. -/
def representative (forest : Forest keyOf) (key : K) : Nat ⊕ K :=
  match forest.index? key with
  | some number => .inl (forest.root number)
  | none => .inr key

theorem representative_of_index? (forest : Forest keyOf) {key : K} {number : Nat}
    (found : forest.index? key = some number) :
    forest.representative key = .inl (forest.root number) := by
  rw [representative, found]

theorem representative_of_not_mem (forest : Forest keyOf) {key : K}
    (absent : key ∉ forest.items.map keyOf) : forest.representative key = .inr key := by
  rw [representative, (forest.index?_eq_none_iff key).mpr absent]

theorem Alike.representative_eq {forest other : Forest keyOf} (alike : Alike forest other) (key : K) :
    other.representative key = forest.representative key := by
  rw [representative, representative, index?_congr alike.items_eq]
  cases forest.index? key with
  | none => rfl
  | some number => simp only [alike.root_eq]

namespace Sound

variable {forest : Forest keyOf}

theorem representative_add_self (sound : forest.Sound) (a : A) :
    (forest.add a).2.representative (keyOf a) = .inl (forest.root (forest.add a).1) := by
  rw [representative_of_index? _ (sound.index?_add a), sound.root_add]

theorem representative_add_of_ne (sound : forest.Sound) (a : A) {key : K} (different : key ≠ keyOf a) :
    (forest.add a).2.representative key = forest.representative key := by
  cases found : forest.index? key with
  | some number =>
      rw [representative_of_index? _ (sound.index?_add_of_some a found), sound.root_add,
        forest.representative_of_index? found]
  | none =>
      have absent := (forest.index?_eq_none_iff key).mp found
      rw [forest.representative_of_not_mem absent]
      apply representative_of_not_mem
      rw [items_add]
      by_cases present : keyOf a ∈ forest.items.map keyOf
      · rwa [if_pos present]
      · rw [if_neg present, List.map_append]
        simp only [List.mem_append, List.map_singleton, List.mem_singleton]
        exact fun member => member.elim absent different

/-- The key of a first arrival shares its representative with no other key, before
and after it arrives. -/
theorem representative_ne_of_first (sound : forest.Sound) (a : A)
    (absent : keyOf a ∉ forest.items.map keyOf) {key : K} (different : key ≠ keyOf a) :
    forest.representative key ≠ forest.representative (keyOf a) ∧
      (forest.add a).2.representative key ≠ (forest.add a).2.representative (keyOf a) := by
  have number_eq : (forest.add a).1 = forest.size := by
    simp [Forest.add, (forest.index?_eq_none_iff (keyOf a)).mpr absent]
  rw [sound.representative_add_of_ne a different, sound.representative_add_self a, number_eq,
    forest.root_of_size_le _ (Nat.le_refl _), forest.representative_of_not_mem absent]
  cases found : forest.index? key with
  | none =>
      rw [forest.representative_of_not_mem ((forest.index?_eq_none_iff key).mp found)]
      exact ⟨fun equal => different (Sum.inr.inj equal), Sum.inr_ne_inl⟩
  | some number =>
      rw [forest.representative_of_index? found]
      have inside := sound.root_lt number (sound.lt_size_of_index? found)
      exact ⟨Sum.inl_ne_inr, fun equal => Nat.ne_of_lt inside (Sum.inl.inj equal)⟩

/-- An arrival neither joins nor parts keys. -/
theorem representative_add_iff (sound : forest.Sound) (a : A) (left right : K) :
    (forest.add a).2.representative left = (forest.add a).2.representative right ↔
      forest.representative left = forest.representative right := by
  by_cases present : keyOf a ∈ forest.items.map keyOf
  · cases found : forest.index? (keyOf a) with
    | none => exact absurd present ((forest.index?_eq_none_iff (keyOf a)).mp found)
    | some number => simp [Forest.add, found]
  · have first : forall key, key ≠ keyOf a -> _ :=
      fun _ different => sound.representative_ne_of_first a present different
    by_cases atLeft : left = keyOf a
    · by_cases atRight : right = keyOf a
      · rw [atLeft, atRight]
        exact ⟨fun _ => rfl, fun _ => rfl⟩
      · rw [atLeft]
        exact ⟨fun equal => absurd equal.symm (first right atRight).2,
          fun equal => absurd equal.symm (first right atRight).1⟩
    · by_cases atRight : right = keyOf a
      · rw [atRight]
        exact ⟨fun equal => absurd equal (first left atLeft).2,
          fun equal => absurd equal (first left atLeft).1⟩
      · rw [sound.representative_add_of_ne a atLeft, sound.representative_add_of_ne a atRight]

end Sound

/-! ## Visits -/

def rootOf (forest : Forest keyOf) (a : A) : Nat :=
  match forest.index? (keyOf a) with
  | some number => forest.root number
  | none => 0

namespace Sound

variable {forest : Forest keyOf}

theorem index?_getElem (sound : forest.Sound) (number : Nat) (inside : number < forest.items.length) :
    forest.index? (keyOf forest.items[number]) = some number := by
  rw [sound.index?_eq_some_iff, List.getElem?_map, List.getElem?_eq_getElem inside]
  rfl

/-- A visit shows every item with its root in the forest at the start. -/
theorem visit (sound : forest.Sound) :
    forest.visit.1 = forest.items.map (fun a => (a, forest.rootOf a)) ∧
      Alike forest forest.visit.2 := by
  have found := sound.findAll_spec (List.range forest.size)
  refine ⟨?_, found.2⟩
  change forest.items.zip (forest.findAll (List.range forest.size)).1 = _
  rw [found.1]
  apply List.ext_getElem
  · simp
  · intro number _ inside
    rw [List.length_map] at inside
    simp only [List.getElem_zip, List.getElem_map, List.getElem_range]
    rw [rootOf, sound.index?_getElem number inside]

theorem rootOf_eq_iff {a b : A} (inA : a ∈ forest.items) (inB : b ∈ forest.items) :
    forest.rootOf a = forest.rootOf b ↔
      forest.representative (keyOf a) = forest.representative (keyOf b) := by
  have represented : forall {c : A}, c ∈ forest.items ->
      forest.representative (keyOf c) = .inl (forest.rootOf c) := by
    intro c member
    cases found : forest.index? (keyOf c) with
    | none =>
        have absent := (forest.index?_eq_none_iff (keyOf c)).mp found
        exact absurd (List.mem_map.mpr ⟨c, member, rfl⟩) absent
    | some number => rw [forest.representative_of_index? found, rootOf, found]
  rw [represented inA, represented inB, Sum.inl.injEq]

end Sound

/-! ## Unions -/

/-- What a union of two items does to a forest: both arrive, their sets become
one, and no other sets are joined. -/
structure Unites (before after : Forest keyOf) (a b : A) : Prop where
  sound : after.Sound
  items_eq : after.items = ((before.add a).2.add b).2.items
  representative_iff : forall left right,
    after.representative left = after.representative right ↔
      before.representative left = before.representative right ∨
      before.representative left = before.representative (keyOf a) ∧
        before.representative right = before.representative (keyOf b) ∨
      before.representative left = before.representative (keyOf b) ∧
        before.representative right = before.representative (keyOf a)

/-- What a union has done before it decides whether to merge: both items have
arrived, some ways may have become shorter, and the roots of the items are known. -/
structure Ready (before ready : Forest keyOf) (a b : A) (rootA rootB : Nat) : Prop where
  alike : Alike ((before.add a).2.add b).2 ready
  representative_a : ready.representative (keyOf a) = .inl rootA
  representative_b : ready.representative (keyOf b) = .inl rootB

theorem Ready.representative_iff {before ready : Forest keyOf} {a b : A} {rootA rootB : Nat}
    (isReady : Ready before ready a b rootA rootB) (sound : before.Sound) (left right : K) :
    ready.representative left = ready.representative right ↔
      before.representative left = before.representative right := by
  rw [isReady.alike.representative_eq, isReady.alike.representative_eq,
    (sound.add a).representative_add_iff, sound.representative_add_iff]

namespace Sound

variable {forest : Forest keyOf}

theorem union_cases (sound : forest.Sound) (a b : A) :
    exists ready rootA rootB, Ready forest ready a b rootA rootB ∧
      forest.union a b =
        if rootA = rootB then (false, ready) else (true, ready.merge rootA rootB) := by
  let arrivedA := (forest.add a).2
  let foundA := (arrivedA.find (forest.add a).1).2
  let arrivedB := (foundA.add b).2
  let foundB := (arrivedB.find (foundA.add b).1).2
  have soundA : arrivedA.Sound := sound.add a
  have alikeA : Alike arrivedA foundA := soundA.alike_find (forest.add a).1
  have soundB : arrivedB.Sound := alikeA.sound.add b
  have alikeB : Alike arrivedB foundB := soundB.alike_find (foundA.add b).1
  refine ⟨foundB, arrivedA.root (forest.add a).1, arrivedB.root (foundA.add b).1, ?_, rfl⟩
  refine ⟨(alikeA.add soundA b).trans alikeB, ?_, ?_⟩
  · have found : foundA.index? (keyOf a) = some (forest.add a).1 := by
      rw [index?_congr alikeA.items_eq]
      exact sound.index?_add a
    rw [alikeB.representative_eq, representative_of_index? _ (alikeA.sound.index?_add_of_some b found),
      alikeA.sound.root_add, alikeA.root_eq]
  · rw [alikeB.representative_eq, representative_of_index? _ (alikeA.sound.index?_add b)]

/-- The root that represents a key is its own parent and has a node. -/
theorem parent_of_representative (sound : forest.Sound) {key : K} {top : Nat}
    (represented : forest.representative key = .inl top) :
    forest.parent top = top ∧ top < forest.size := by
  cases found : forest.index? key with
  | none =>
      rw [representative, found] at represented
      cases represented
  | some number =>
      rw [forest.representative_of_index? found] at represented
      have top_eq := Sum.inl.inj represented
      subst top
      exact ⟨sound.parent_root number, sound.root_lt number (sound.lt_size_of_index? found)⟩

theorem representative_merge_iff (sound : forest.Sound) {a b : K} {rootA rootB : Nat}
    (atA : forest.representative a = .inl rootA) (atB : forest.representative b = .inl rootB)
    (different : rootA ≠ rootB) (left right : K) :
    (forest.merge rootA rootB).representative left = (forest.merge rootA rootB).representative right ↔
      forest.representative left = forest.representative right ∨
      forest.representative left = forest.representative a ∧
        forest.representative right = forest.representative b ∨
      forest.representative left = forest.representative b ∧
        forest.representative right = forest.representative a := by
  have topA := sound.parent_of_representative atA
  have topB := sound.parent_of_representative atB
  rcases sound.merge rootA rootB topA.1 topB.1 topA.2 topB.2 different with
    ⟨_, items_eq, winner, winner_eq, root_eq⟩
  have merged : forall key, (forest.merge rootA rootB).representative key =
      (forest.representative key).map
        (fun top => if top = rootA ∨ top = rootB then winner else top) id := by
    intro key
    rw [representative, representative, index?_congr items_eq]
    cases forest.index? key with
    | none => rfl
    | some number => simp only [root_eq, Sum.map_inl]
  rw [merged, merged, atA, atB]
  cases forest.representative left with
  | inr left => cases forest.representative right <;> simp
  | inl left =>
      cases forest.representative right with
      | inr right => simp
      | inl right =>
          simp only [Sum.map_inl, Sum.inl.injEq]
          split <;> split <;> omega

/-- A union joins the sets of its items and answers whether they were apart. -/
theorem union (sound : forest.Sound) (a b : A) :
    Unites forest (forest.union a b).2 a b ∧
      ((forest.union a b).1 = true ↔
        forest.representative (keyOf a) ≠ forest.representative (keyOf b)) := by
  rcases sound.union_cases a b with ⟨ready, rootA, rootB, isReady, union_eq⟩
  have apart : rootA ≠ rootB ↔
      forest.representative (keyOf a) ≠ forest.representative (keyOf b) := by
    rw [ne_eq, ne_eq, ← isReady.representative_iff sound, isReady.representative_a,
      isReady.representative_b, Sum.inl.injEq]
  rw [union_eq, ← apart]
  by_cases same : rootA = rootB
  · rw [if_pos same]
    refine ⟨⟨isReady.alike.sound, isReady.alike.items_eq, ?_⟩, by simp [same]⟩
    intro left right
    rw [isReady.representative_iff sound]
    have joined : forest.representative (keyOf a) = forest.representative (keyOf b) :=
      Classical.byContradiction (fun different => apart.mpr different same)
    rw [joined]
    constructor
    · exact Or.inl
    · rintro (equal | ⟨atLeft, atRight⟩ | ⟨atLeft, atRight⟩)
      · exact equal
      · exact atLeft.trans atRight.symm
      · exact atLeft.trans atRight.symm
  · rw [if_neg same]
    have topA := isReady.alike.sound.parent_of_representative isReady.representative_a
    have topB := isReady.alike.sound.parent_of_representative isReady.representative_b
    have merged := isReady.alike.sound.merge rootA rootB topA.1 topB.1 topA.2 topB.2 same
    refine ⟨⟨merged.1, merged.2.1.trans isReady.alike.items_eq, ?_⟩, by simp [same]⟩
    intro left right
    rw [isReady.alike.sound.representative_merge_iff isReady.representative_a isReady.representative_b same]
    simp only [isReady.representative_iff sound]

end Sound

/-! ## Histories -/

/-- A forest that stands for a history. -/
structure StandsFor (forest : Forest keyOf) (arrivals : List A) (pairs : List (A × A)) : Prop where
  sound : forest.Sound
  items_eq : forest.items = firstOfEach keyOf arrivals
  representative_iff : forall left right,
    forest.representative left = forest.representative right ↔ Connected keyOf pairs left right

namespace StandsFor

variable {forest : Forest keyOf} {arrivals : List A} {pairs : List (A × A)}

theorem empty : ({} : Forest keyOf).StandsFor [] [] := by
  have none : forall key : K, ({} : Forest keyOf).representative key = .inr key := by
    intro key
    apply representative_of_not_mem
    simp [items]
  refine ⟨⟨?_, ?_, ?_⟩, rfl, ?_⟩
  · intro number inside
    simp [size] at inside
  · intro number linked
    exact absurd (parent_of_size_le _ number (by simp [size])) linked
  · simp [items]
  · intro left right
    rw [none, none, Sum.inr.injEq]
    constructor
    · intro same
      exact same ▸ Relation.EqvGen.refl left
    · intro connected
      exact connected.congr id (fun pair member => by cases member)

theorem add (stands : forest.StandsFor arrivals pairs) (a : A) :
    (forest.add a).2.StandsFor (arrivals ++ [a]) pairs where
  sound := stands.sound.add a
  items_eq := by rw [items_add, stands.items_eq, firstOfEach_concat]
  representative_iff left right := by
    rw [stands.sound.representative_add_iff, stands.representative_iff]

/-- The connections after a union are those before it, closed under the new pair. -/
theorem union (stands : forest.StandsFor arrivals pairs) (a b : A) :
    (forest.union a b).2.StandsFor (arrivals ++ [a, b]) (pairs ++ [(a, b)]) := by
  have unites := (stands.sound.union a b).1
  have arrived := (stands.add a).add b
  refine ⟨unites.sound, ?_, ?_⟩
  · rw [unites.items_eq, arrived.items_eq, List.append_assoc]
    rfl
  · intro left right
    have older : forall pair, pair ∈ pairs -> pair ∈ pairs ++ [(a, b)] :=
      fun pair member => List.mem_append_left _ member
    have newest : Connected keyOf (pairs ++ [(a, b)]) (keyOf a) (keyOf b) :=
      Connected.of_mem (List.mem_append_right _ List.mem_cons_self)
    have connected : forall {first second}, forest.representative first = forest.representative second ->
        Connected keyOf (pairs ++ [(a, b)]) first second :=
      fun same => ((stands.representative_iff _ _).mp same).mono older
    constructor
    · intro same
      rcases (unites.representative_iff left right).mp same with before | ⟨atLeft, atRight⟩ | ⟨atLeft, atRight⟩
      · exact connected before
      · exact ((connected atLeft).trans newest).trans (connected atRight.symm)
      · exact ((connected atLeft).trans newest.symm).trans (connected atRight.symm)
    · intro linked
      -- The new representatives are constant on all pairs, the new one included.
      apply linked.congr (forest.union a b).2.representative
      intro pair member
      apply (unites.representative_iff _ _).mpr
      rcases List.mem_append.mp member with old | new
      · apply Or.inl
        apply (stands.representative_iff _ _).mpr
        exact Connected.of_mem old
      · rw [List.mem_singleton] at new
        subst pair
        exact Or.inr (Or.inl ⟨rfl, rfl⟩)

end StandsFor

end Keys

end Forest
end Monotype
