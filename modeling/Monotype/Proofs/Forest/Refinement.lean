import Monotype.Unifier
import Monotype.Proofs.Forest.Compression
import Mathlib.Data.Set.Card

namespace Monotype
namespace Forest

variable {A K : Type} {keyOf : A -> K}

/-!
# What a forest answers

Of all that has happened to a forest, two things decide its answers: which items have arrived, in
which order, and which pairs have been united.  `Agrees` says what each operation may answer after
such a history, and mentions neither links nor ranks.  Roots are free, as long as they tell the
classes apart.

Classes are counted through the nodes at the top.  An arrival is a new one, a merge takes one away,
and a merge happens exactly if a union is answered with yes.
-/

/-! ## Nodes at the top -/

/-- The numbers of the nodes that are their own parents. -/
def tops (forest : Forest keyOf) : Finset Nat :=
  {number ∈ Finset.range forest.size | forest.parent number = number}

theorem mem_tops (forest : Forest keyOf) (number : Nat) :
    number ∈ forest.tops ↔ number < forest.size ∧ forest.parent number = number := by
  rw [tops, Finset.mem_filter, Finset.mem_range]

/-- As many merges have been made as there are nodes that are not at the top. -/
def Tallied (forest : Forest keyOf) (merges : Nat) : Prop :=
  merges + forest.tops.card = forest.size

theorem Alike.tops_eq {forest other : Forest keyOf} (alike : Alike forest other)
    (sound : forest.Sound) : other.tops = forest.tops := by
  ext number
  rw [mem_tops, mem_tops, alike.size_eq, ← alike.sound.root_eq_self_iff, alike.root_eq,
    sound.root_eq_self_iff]

/-- The nodes at the top are the roots of the nodes. -/
theorem Sound.tops_eq_image {forest : Forest keyOf} (sound : forest.Sound) :
    forest.tops = (Finset.range forest.size).image forest.root := by
  ext number
  rw [mem_tops, Finset.mem_image]
  constructor
  · rintro ⟨inside, top⟩
    exact ⟨number, Finset.mem_range.mpr inside, forest.root_of_parent_eq number top⟩
  · rintro ⟨below, inside, rfl⟩
    exact ⟨sound.root_lt below (Finset.mem_range.mp inside), sound.parent_root below⟩

/-- Of the two roots that are merged, the heir alone stays at the top. -/
theorem Sound.mem_tops_merge {forest : Forest keyOf} (sound : forest.Sound) {first second : Nat}
    (firstTop : forest.parent first = first) (secondTop : forest.parent second = second)
    (firstInside : first < forest.size) (secondInside : second < forest.size)
    (different : first ≠ second) (number : Nat) :
    number ∈ (forest.merge first second).tops ↔ number ∈ forest.tops ∧
      (number = first ∨ number = second -> number = forest.heir first second) := by
  rcases sound.root_merge first second firstTop secondTop firstInside secondInside different with
    ⟨merged, items_eq, root_eq⟩
  have heirTop : forest.parent (forest.heir first second) = forest.heir first second := by
    rcases forest.heir_eq first second with isFirst | isSecond
    · rwa [isFirst]
    · rwa [isSecond]
  rw [mem_tops, mem_tops, ← length_items, items_eq, length_items, ← merged.root_eq_self_iff, root_eq,
    and_assoc]
  apply and_congr_right
  intro inside
  by_cases atTop : forest.parent number = number
  · rw [forest.root_of_parent_eq number atTop]
    by_cases joined : number = first ∨ number = second
    · rw [if_pos joined]
      exact ⟨fun same => ⟨atTop, fun _ => same.symm⟩, fun both => (both.2 joined).symm⟩
    · rw [if_neg joined]
      exact iff_of_true rfl ⟨atTop, fun either => absurd either joined⟩
  · refine iff_of_false ?_ (fun both => atTop both.1)
    intro same
    split at same
    · exact atTop (same ▸ heirTop)
    · exact atTop ((sound.root_eq_self_iff number).mp same)

/-- A merge takes one node away from the top. -/
theorem Sound.card_tops_merge {forest : Forest keyOf} (sound : forest.Sound) {first second : Nat}
    (firstTop : forest.parent first = first) (secondTop : forest.parent second = second)
    (firstInside : first < forest.size) (secondInside : second < forest.size)
    (different : first ≠ second) :
    (forest.merge first second).tops.card + 1 = forest.tops.card := by
  have stays := sound.mem_tops_merge firstTop secondTop firstInside secondInside different
  rcases forest.heir_eq first second with isFirst | isSecond
  · have tops_eq : (forest.merge first second).tops = forest.tops.erase second := by
      ext number
      rw [stays, isFirst, Finset.mem_erase]
      grind
    rw [tops_eq]
    exact Finset.card_erase_add_one ((forest.mem_tops second).mpr ⟨secondInside, secondTop⟩)
  · have tops_eq : (forest.merge first second).tops = forest.tops.erase first := by
      ext number
      rw [stays, isSecond, Finset.mem_erase]
      grind
    rw [tops_eq]
    exact Finset.card_erase_add_one ((forest.mem_tops first).mpr ⟨firstInside, firstTop⟩)

theorem tallied_empty : ({} : Forest keyOf).Tallied 0 :=
  rfl

theorem Alike.tallied {forest other : Forest keyOf} (alike : Alike forest other) (sound : forest.Sound)
    {merges : Nat} (tallied : forest.Tallied merges) : other.Tallied merges := by
  rw [Tallied, alike.tops_eq sound, alike.size_eq]
  exact tallied

section Keys

variable [DecidableEq K]

namespace Tallied

variable {forest : Forest keyOf} {merges : Nat}

theorem add (tallied : forest.Tallied merges) (a : A) : (forest.add a).2.Tallied merges := by
  cases found : forest.index? (keyOf a) with
  | some number =>
      have same : (forest.add a).2 = forest := by simp [Forest.add, found]
      rwa [same]
  | none =>
      have size_eq : (forest.add a).2.size = forest.size + 1 := by simp [Forest.add, found, size]
      have tops_eq : (forest.add a).2.tops = insert forest.size forest.tops := by
        ext number
        rw [Finset.mem_insert, mem_tops, mem_tops, size_eq, parent_add]
        have last := forest.parent_of_size_le forest.size (Nat.le_refl _)
        constructor
        · rintro ⟨inside, top⟩
          by_cases new : number = forest.size
          · exact Or.inl new
          · exact Or.inr ⟨by omega, top⟩
        · rintro (rfl | ⟨inside, top⟩)
          · exact ⟨Nat.lt_succ_self _, last⟩
          · exact ⟨Nat.lt_succ_of_lt inside, top⟩
      have absent : forest.size ∉ forest.tops := by
        rw [mem_tops]
        exact fun both => Nat.lt_irrefl _ both.1
      rw [Tallied, tops_eq, size_eq, Finset.card_insert_of_notMem absent, ← Nat.add_assoc]
      exact congrArg (· + 1) tallied

/-- A union merges exactly if its answer is yes. -/
theorem union (tallied : forest.Tallied merges) (sound : forest.Sound) (a b : A) :
    (forest.union a b).2.Tallied (if (forest.union a b).1 then merges + 1 else merges) := by
  rcases sound.union_cases a b with ⟨ready, rootA, rootB, isReady, union_eq⟩
  have readyTallied : ready.Tallied merges :=
    isReady.alike.tallied ((sound.add a).add b) ((tallied.add a).add b)
  rw [union_eq]
  by_cases same : rootA = rootB
  · rw [if_pos same]
    exact readyTallied
  · rw [if_neg same]
    have readySound := isReady.alike.sound
    have topA := readySound.parent_of_representative isReady.representative_a
    have topB := readySound.parent_of_representative isReady.representative_b
    have size_eq : (ready.merge rootA rootB).size = ready.size := by
      rw [← length_items, (readySound.merge rootA rootB topA.1 topB.1 topA.2 topB.2 same).2.1, length_items]
    have fewer := readySound.card_tops_merge topA.1 topB.1 topA.2 topB.2 same
    change merges + 1 + (ready.merge rootA rootB).tops.card = (ready.merge rootA rootB).size
    rw [size_eq, Nat.add_assoc, Nat.add_comm 1, fewer]
    exact readyTallied

end Tallied

/-! ## Classes -/

/-- The classes of the keys that have arrived. -/
def blocks (keyOf : A -> K) (arrivals : List A) (pairs : List (A × A)) : Set (Set K) :=
  {block | exists a, a ∈ arrivals ∧ block = {key | Connected keyOf pairs (keyOf a) key}}

namespace StandsFor

variable {forest : Forest keyOf} {arrivals : List A} {pairs : List (A × A)}

theorem mem_keys_iff (stands : forest.StandsFor arrivals pairs) (key : K) :
    key ∈ forest.items.map keyOf ↔ key ∈ arrivals.map keyOf := by
  rw [stands.items_eq, mem_map_firstOfEach]

/-- Every node has a key, which its root represents. -/
theorem exists_key (stands : forest.StandsFor arrivals pairs) {number : Nat}
    (inside : number < forest.size) : exists key,
      (forest.items.map keyOf)[number]? = some key ∧ forest.representative key = .inl (forest.root number) := by
  rw [← length_items] at inside
  have indexed := stands.sound.index?_getElem number inside
  exact ⟨_, (stands.sound.index?_eq_some_iff _ number).mp indexed, forest.representative_of_index? indexed⟩

/-- The root of an item that has arrived. -/
theorem exists_top (stands : forest.StandsFor arrivals pairs) {a : A} (arrived : a ∈ arrivals) :
    exists top, top ∈ forest.tops ∧ forest.representative (keyOf a) = .inl top := by
  have present := (stands.mem_keys_iff (keyOf a)).mpr (List.mem_map_of_mem arrived)
  cases found : forest.index? (keyOf a) with
  | none => exact absurd present ((forest.index?_eq_none_iff _).mp found)
  | some number =>
      have represented := forest.representative_of_index? found
      have atTop := stands.sound.parent_of_representative represented
      exact ⟨_, (forest.mem_tops _).mpr ⟨atTop.2, atTop.1⟩, represented⟩

/-- Every node at the top is the root of an item that has arrived. -/
theorem exists_arrival (stands : forest.StandsFor arrivals pairs) {top : Nat} (member : top ∈ forest.tops) :
    exists a, a ∈ arrivals ∧ forest.representative (keyOf a) = .inl top := by
  rcases (forest.mem_tops top).mp member with ⟨inside, atTop⟩
  rcases stands.exists_key inside with ⟨key, listed, represented⟩
  rw [forest.root_of_parent_eq top atTop] at represented
  have arrived := (stands.mem_keys_iff key).mp (List.mem_of_getElem? listed)
  rcases List.mem_map.mp arrived with ⟨a, isArrival, rfl⟩
  exact ⟨a, isArrival, represented⟩

/-- The class of a key holds the keys with the same root. -/
theorem block_eq (stands : forest.StandsFor arrivals pairs) {own : K} {top : Nat}
    (represented : forest.representative own = .inl top) :
    {key | Connected keyOf pairs own key} = {key | forest.representative key = .inl top} := by
  ext key
  change Connected keyOf pairs own key ↔ forest.representative key = .inl top
  rw [← stands.representative_iff, represented]
  exact eq_comm

/-- There is one class for each node at the top. -/
theorem ncard_blocks (stands : forest.StandsFor arrivals pairs) :
    (blocks keyOf arrivals pairs).ncard = forest.tops.card := by
  let block (top : Nat) : Set K := {key | forest.representative key = .inl top}
  have blocks_eq : blocks keyOf arrivals pairs = block '' forest.tops := by
    ext keys
    constructor
    · rintro ⟨a, arrived, rfl⟩
      rcases stands.exists_top arrived with ⟨top, member, represented⟩
      exact ⟨top, member, (stands.block_eq represented).symm⟩
    · rintro ⟨top, member, rfl⟩
      rcases stands.exists_arrival member with ⟨a, arrived, represented⟩
      exact ⟨a, arrived, (stands.block_eq represented).symm⟩
  have injective : Set.InjOn block forest.tops := by
    intro top member other _ same
    rcases stands.exists_arrival member with ⟨a, _, represented⟩
    have inOther : keyOf a ∈ block other := same ▸ represented
    exact Sum.inl.inj (represented.symm.trans inOther)
  rw [blocks_eq, injective.ncard_image, Set.ncard_coe_finset]

end StandsFor

/-! ## Answers -/

/-- The pairs that an operation unites. -/
def Operation.pairs : Operation A -> List (A × A)
  | add _ => []
  | has _ => []
  | find _ => []
  | union a b => [(a, b)]
  | connected _ _ => []
  | visit => []

/-- What an operation may answer when the given items have arrived and the given pairs have been
united.  Numbers are places among the first arrivals of each key. -/
inductive Agrees (keyOf : A -> K) (arrivals : List A) (pairs : List (A × A)) :
    Operation A -> Answer A -> Prop where
  | add {a : A} {number : Nat}
      (placed : ((firstOfEach keyOf (arrivals ++ [a])).map keyOf)[number]? = some (keyOf a)) :
      Agrees keyOf arrivals pairs (.add a) (.number number)
  | has {a : A} {seen : Bool} (seen_iff : seen = true ↔ keyOf a ∈ arrivals.map keyOf) :
      Agrees keyOf arrivals pairs (.has a) (.truth seen)
  | found {number top : Nat} {key topKey : K}
      (placed : ((firstOfEach keyOf arrivals).map keyOf)[number]? = some key)
      (topPlaced : ((firstOfEach keyOf arrivals).map keyOf)[top]? = some topKey)
      (connected : Connected keyOf pairs key topKey) :
      Agrees keyOf arrivals pairs (.find number) (.number top)
  | refused {number : Int}
      (outside : ¬ (0 ≤ number ∧ number < (firstOfEach keyOf arrivals).length)) :
      Agrees keyOf arrivals pairs (.find number) (.refusal (outOfRange number))
  | union {a b : A} {apart : Bool}
      (apart_iff : apart = true ↔ ¬ Connected keyOf pairs (keyOf a) (keyOf b)) :
      Agrees keyOf arrivals pairs (.union a b) (.truth apart)
  | connected {a b : A} {together : Bool}
      (together_iff : together = true ↔ Connected keyOf pairs (keyOf a) (keyOf b)) :
      Agrees keyOf arrivals pairs (.connected a b) (.truth together)
  | visit {visits : List (A × Nat)} (items_eq : visits.map Prod.fst = firstOfEach keyOf arrivals)
      (roots_iff : forall one, one ∈ visits -> forall other, other ∈ visits ->
        (one.2 = other.2 ↔ Connected keyOf pairs (keyOf one.1) (keyOf other.1))) :
      Agrees keyOf arrivals pairs .visit (.visits visits)

theorem has_eq_true_iff (forest : Forest keyOf) (a : A) :
    forest.has a = true ↔ keyOf a ∈ forest.items.map keyOf := by
  rw [has, Option.isSome_iff_ne_none, ne_eq, index?_eq_none_iff, Decidable.not_not]

/-- The answer to a question whether two items are in one set. -/
theorem Sound.connected_eq_true_iff {forest : Forest keyOf} (sound : forest.Sound) (a b : A) :
    (forest.connected a b).1 = true ↔
      forest.representative (keyOf a) = forest.representative (keyOf b) := by
  rw [Forest.connected]
  cases foundA : forest.index? (keyOf a) with
  | none =>
      rw [representative, foundA]
      cases foundB : forest.index? (keyOf b) with
      | none =>
          rw [representative, foundB, Sum.inr.injEq]
          exact decide_eq_true_iff
      | some numberB =>
          rw [representative, foundB]
          have different : keyOf a ≠ keyOf b := by
            intro same
            rw [same, foundB] at foundA
            cases foundA
          simp [different]
  | some numberA =>
      rw [forest.representative_of_index? foundA]
      cases foundB : forest.index? (keyOf b) with
      | none =>
          rw [representative, foundB]
          have different : keyOf a ≠ keyOf b := by
            intro same
            rw [same, foundB] at foundA
            cases foundA
          simp [different]
      | some numberB =>
          rw [forest.representative_of_index? foundB, Sum.inl.injEq]
          change decide (forest.root numberA = (forest.find numberA).2.root numberB) = true ↔ _
          rw [(sound.alike_find numberA).root_eq, decide_eq_true_iff]

namespace StandsFor

variable {forest other : Forest keyOf} {arrivals : List A} {pairs : List (A × A)}

/-- A forest answers by the history it stands for. -/
theorem agrees (stands : forest.StandsFor arrivals pairs) (operation : Operation A) :
    Agrees keyOf arrivals pairs operation (forest.perform operation).1 := by
  have size_eq : forest.size = (firstOfEach keyOf arrivals).length := by
    rw [← length_items, stands.items_eq]
  cases operation with
  | add a =>
      apply Agrees.add
      have arrived := stands.add a
      have placed := (arrived.sound.index?_eq_some_iff _ _).mp (stands.sound.index?_add a)
      rwa [arrived.items_eq] at placed
  | has a =>
      apply Agrees.has
      rw [has_eq_true_iff, stands.mem_keys_iff]
  | find number =>
      by_cases inside : 0 ≤ number ∧ number < forest.size
      · rw [perform_find _ inside]
        rcases Int.eq_ofNat_of_zero_le inside.1 with ⟨place, rfl⟩
        have below : place < forest.size := Int.ofNat_lt.mp inside.2
        rcases stands.exists_key below with ⟨key, placed, represented⟩
        rcases stands.exists_key (stands.sound.root_lt place below) with ⟨topKey, topPlaced, topRepresented⟩
        rw [stands.items_eq] at placed topPlaced
        refine Agrees.found placed topPlaced ((stands.representative_iff key topKey).mp ?_)
        rw [represented, topRepresented, stands.sound.root_root]
      · rw [perform_find_of_outside _ inside]
        apply Agrees.refused
        rwa [← size_eq]
  | union a b =>
      apply Agrees.union
      rw [← stands.representative_iff]
      exact (stands.sound.union a b).2
  | connected a b =>
      apply Agrees.connected
      rw [← stands.representative_iff]
      exact stands.sound.connected_eq_true_iff a b
  | visit =>
      have visited := stands.sound.visit.1
      have visits_eq : (forest.perform .visit).1 =
          .visits (forest.items.map (fun a => (a, forest.rootOf a))) := congrArg Answer.visits visited
      rw [visits_eq]
      apply Agrees.visit
      · rw [List.map_map, ← stands.items_eq]
        exact List.map_id _
      · intro one inOne two inTwo
        rcases List.mem_map.mp inOne with ⟨a, memberA, rfl⟩
        rcases List.mem_map.mp inTwo with ⟨b, memberB, rfl⟩
        rw [← stands.representative_iff]
        exact Sound.rootOf_eq_iff memberA memberB

/-- The root that was found is found again. -/
theorem find_top (stands : forest.StandsFor arrivals pairs) {number : Int} {top : Nat}
    (found : (forest.perform (.find number)).1 = .number top) :
    ((forest.perform (.find number)).2.perform (.find top)).1 = .number top := by
  by_cases inside : 0 ≤ number ∧ number < forest.size
  · rw [perform_find _ inside] at found ⊢
    have alike := stands.sound.alike_find number.toNat
    have top_eq : forest.root number.toNat = top := Answer.number.inj found
    have below := stands.sound.root_lt number.toNat (by omega)
    have topInside : 0 ≤ (top : Int) ∧ (top : Int) < (forest.find number.toNat).2.size := by
      rw [alike.size_eq]
      omega
    rw [perform_find _ topInside, Int.toNat_natCast, alike.root_eq, ← top_eq, stands.sound.root_root]
  · rw [perform_find_of_outside _ inside] at found
    cases found

/-- A key that has not arrived is connected to no other key. -/
theorem connected_unseen (stands : forest.StandsFor arrivals pairs) {key : K}
    (unseen : key ∉ arrivals.map keyOf) (other : K) : Connected keyOf pairs key other ↔ key = other := by
  rw [← stands.mem_keys_iff] at unseen
  constructor
  · intro connected
    have same := (stands.representative_iff key other).mpr connected
    rw [forest.representative_of_not_mem unseen] at same
    cases found : forest.index? other with
    | none =>
        rw [representative, found] at same
        exact Sum.inr.inj same
    | some number =>
        rw [forest.representative_of_index? found] at same
        cases same
  · rintro rfl
    exact Connected.refl key

theorem alike (stands : forest.StandsFor arrivals pairs) (alike : Alike forest other) :
    other.StandsFor arrivals pairs where
  sound := alike.sound
  items_eq := alike.items_eq.trans stands.items_eq
  representative_iff left right := by
    rw [alike.representative_eq, alike.representative_eq, stands.representative_iff]

end StandsFor

/-! ## Any number of operations -/

/-- Whether an operation is a union that was answered with yes. -/
def Operation.joined : Operation A -> Answer A -> Bool
  | union _ _, .truth true => true
  | _, _ => false

/-- The number of unions that were answered with yes. -/
def joins (operations : List (Operation A)) (answers : List (Answer A)) : Nat :=
  (operations.zip answers).countP (fun entry => entry.1.joined entry.2)

/-- A forest that stands for a history with the given number of merges. -/
structure Tracks (forest : Forest keyOf) (arrivals : List A) (pairs : List (A × A)) (merges : Nat) : Prop where
  stands : forest.StandsFor arrivals pairs
  tallied : forest.Tallied merges

namespace Tracks

variable {forest other : Forest keyOf} {arrivals : List A} {pairs : List (A × A)} {merges : Nat}

theorem alike (tracks : forest.Tracks arrivals pairs merges) (alike : Alike forest other) :
    other.Tracks (arrivals ++ []) (pairs ++ []) merges := by
  rw [List.append_nil, List.append_nil]
  exact ⟨tracks.stands.alike alike, alike.tallied tracks.stands.sound tracks.tallied⟩

/-- One operation. -/
theorem perform (tracks : forest.Tracks arrivals pairs merges) (operation : Operation A) :
    (forest.perform operation).2.Tracks (arrivals ++ operation.arrivals) (pairs ++ operation.pairs)
      (if operation.joined (forest.perform operation).1 then merges + 1 else merges) := by
  have sound := tracks.stands.sound
  cases operation with
  | add a =>
      refine ⟨?_, tracks.tallied.add a⟩
      rw [Operation.pairs, List.append_nil]
      exact tracks.stands.add a
  | has a => exact tracks.alike (Alike.refl sound)
  | find number =>
      by_cases inside : 0 ≤ number ∧ number < forest.size
      · rw [perform_find _ inside]
        exact tracks.alike (sound.alike_find number.toNat)
      · rw [perform_find_of_outside _ inside]
        exact tracks.alike (Alike.refl sound)
  | union a b =>
      have counted := tracks.tallied.union sound a b
      refine ⟨tracks.stands.union a b, ?_⟩
      change (forest.union a b).2.Tallied (if Operation.joined (.union a b) (.truth (forest.union a b).1)
        then merges + 1 else merges)
      cases answer : (forest.union a b).1 with
      | true =>
          rw [answer] at counted
          exact counted
      | false =>
          rw [answer] at counted
          exact counted
  | connected a b => exact tracks.alike (sound.alike_connected a b)
  | visit => exact tracks.alike sound.visit.2

/-- Any number of operations. -/
theorem foldl (tracks : forest.Tracks arrivals pairs merges) (operations : List (Operation A)) :
    (operations.foldl (fun forest operation => (forest.perform operation).2) forest).Tracks
      (arrivals ++ operations.flatMap Operation.arrivals) (pairs ++ operations.flatMap Operation.pairs)
      (merges + joins operations
        (replies (fun (forest : Forest keyOf) operation => forest.perform operation) forest operations)) := by
  induction operations generalizing forest arrivals pairs merges with
  | nil =>
      rw [List.flatMap_nil, List.flatMap_nil, List.append_nil, List.append_nil]
      exact tracks
  | cons operation rest ih =>
      have later := ih (tracks.perform operation)
      rw [List.foldl_cons, List.flatMap_cons, List.flatMap_cons, ← List.append_assoc, ← List.append_assoc]
      rw [replies, joins, List.zip_cons_cons, List.countP_cons]
      rw [joins] at later
      cases joined : operation.joined (forest.perform operation).1 with
      | true =>
          rw [joined, if_pos rfl, Nat.add_assoc, Nat.add_comm 1] at later
          rw [if_pos rfl]
          exact later
      | false =>
          rw [joined] at later
          exact later

end Tracks

/-- What the user of a forest may rely on after a history: what it holds, what it answers to whatever
is asked next, and how many classes there are. -/
structure Reflects (forest : Forest keyOf) (arrivals : List A) (pairs : List (A × A)) (joins : Nat) :
    Prop where
  items_eq : forest.items = firstOfEach keyOf arrivals
  size_eq : forest.size = (firstOfEach keyOf arrivals).length
  agrees : forall operation, Agrees keyOf arrivals pairs operation (forest.perform operation).1
  find_top : forall (number : Int) (top : Nat), (forest.perform (.find number)).1 = .number top ->
    ((forest.perform (.find number)).2.perform (.find top)).1 = .number top
  connected_adds : forall a b, (forest.perform (.connected a b)).2.items = forest.items
  connected_unseen : forall key, key ∉ arrivals.map keyOf -> forall other,
    (Connected keyOf pairs key other ↔ key = other)
  joins_add_blocks : joins + (blocks keyOf arrivals pairs).ncard = forest.size

theorem Tracks.reflects {forest : Forest keyOf} {arrivals : List A} {pairs : List (A × A)} {merges : Nat}
    (tracks : forest.Tracks arrivals pairs merges) : forest.Reflects arrivals pairs merges where
  items_eq := tracks.stands.items_eq
  size_eq := by rw [← length_items, tracks.stands.items_eq]
  agrees := tracks.stands.agrees
  find_top _ _ := tracks.stands.find_top
  connected_adds a b := (tracks.stands.sound.alike_connected a b).items_eq
  connected_unseen _ := tracks.stands.connected_unseen
  joins_add_blocks := by
    rw [tracks.stands.ncard_blocks]
    exact tracks.tallied

end Keys

end Forest

/-! ## Merges of a unifier -/

namespace Unifier

/-- What a unifier can be asked to do. -/
inductive Request where
  | unify (left right : Term)
  | unifyAll (equations : List Equation)
  | equivalent (left right : Term)
  | classes

def serve (unifier : Unifier) : Request -> Unifier
  | .unify left right => (unifier.unify left right).2
  | .unifyAll equations => unifier.unifyAll equations
  | .equivalent left right => (unifier.equivalent left right).2
  | .classes => unifier.classes.2

def run (requests : List Request) : Unifier :=
  requests.foldl serve {}

/-- The merges that a unifier has counted are those that have been made. -/
structure Counts (unifier : Unifier) : Prop where
  sound : unifier.sets.Sound
  tallied : unifier.sets.Tallied unifier.merges

namespace Counts

variable {unifier : Unifier}

theorem unify (counts : unifier.Counts) (left right : Term) : (unifier.unify left right).2.Counts :=
  ⟨(counts.sound.union left right).1.sound, counts.tallied.union counts.sound left right⟩

theorem unifyAll (counts : unifier.Counts) (equations : List Equation) :
    (unifier.unifyAll equations).Counts := by
  induction equations generalizing unifier with
  | nil => exact counts
  | cons equation rest ih => exact ih (counts.unify equation.left equation.right)

theorem alike (counts : unifier.Counts) {sets : Forest Term.key}
    (alike : Forest.Alike unifier.sets sets) : ({ unifier with sets := sets } : Unifier).Counts :=
  ⟨alike.sound, alike.tallied counts.sound counts.tallied⟩

theorem serve (counts : unifier.Counts) (request : Request) : (unifier.serve request).Counts := by
  cases request with
  | unify left right => exact counts.unify left right
  | unifyAll equations => exact counts.unifyAll equations
  | equivalent left right => exact counts.alike (counts.sound.alike_connected left right)
  | classes => exact counts.alike counts.sound.visit.2

theorem run (requests : List Request) : (Unifier.run requests).Counts := by
  have step (unifier : Unifier) (counts : unifier.Counts) : (requests.foldl Unifier.serve unifier).Counts := by
    induction requests generalizing unifier with
    | nil => exact counts
    | cons request rest ih => exact ih _ (counts.serve request)
  exact step {} ⟨Forest.StandsFor.empty.sound, Forest.tallied_empty⟩

/-- A snapshot shows one class for each node at the top. -/
theorem length_classes (counts : unifier.Counts) :
    unifier.classes.1.classes.length = unifier.sets.tops.card := by
  have roots_eq : unifier.sets.visit.1.map Prod.snd =
      (List.range unifier.sets.size).map unifier.sets.root := by
    have found := (counts.sound.findAll_spec (List.range unifier.sets.size)).1
    change (unifier.sets.items.zip (unifier.sets.findAll (List.range unifier.sets.size)).1).map Prod.snd = _
    rw [found]
    apply List.map_snd_zip
    simp
  have tops_eq : (unifier.sets.visit.1.map Prod.snd).eraseDups.toFinset = unifier.sets.tops := by
    ext number
    rw [List.mem_toFinset, List.mem_eraseDups, roots_eq, counts.sound.tops_eq_image]
    simp
  change (ClassMap.ofVisit unifier.sets.visit.1).classes.length = _
  rw [← tops_eq, List.toFinset_card_of_nodup (Kinds.nodup_eraseDups _), ClassMap.ofVisit]
  exact List.length_mapIdx

end Counts

end Unifier

/-- Whatever is asked of a forest that was empty at the start, its answers are those of the first
arrivals and of the equivalence that the united pairs generate, and every union that is answered with
yes makes one class less.  So the merges of a unifier and its classes add up to its terms. -/
theorem Forest.run_reflects :
    (forall {A K : Type} [DecidableEq K] (keyOf : A -> K) (operations : List (Operation A)),
      (run keyOf operations).Reflects (operations.flatMap Operation.arrivals)
        (operations.flatMap Operation.pairs) (joins operations (answers keyOf operations))) ∧
      (forall requests : List Unifier.Request,
        (Unifier.run requests).merges + (Unifier.run requests).classes.1.classes.length =
          (Unifier.run requests).size) := by
  constructor
  · intro A K _ keyOf operations
    have start : ({} : Forest keyOf).Tracks [] [] 0 := ⟨StandsFor.empty, tallied_empty⟩
    have tracks := start.foldl operations
    rw [List.nil_append, List.nil_append, Nat.zero_add] at tracks
    exact tracks.reflects
  · intro requests
    have counts := Unifier.Counts.run requests
    rw [counts.length_classes]
    exact counts.tallied

end Monotype
