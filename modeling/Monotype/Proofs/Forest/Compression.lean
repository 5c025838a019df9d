import Monotype.Proofs.Forest.Balance

namespace Monotype
namespace Forest

variable {A K : Type} {keyOf : A -> K}

/-!
# Shorter ways do not show

Almost every operation shortens ways, so the links of a forest tell what it has been asked before.
No answer does.  `Plain` carries out the same operations and only follows links; it writes a link
when it merges and at no other time.  The links of the two machines drift apart, but items, ranks
and roots stay the same, and nothing else decides an answer or the outcome of a merge.

For the plain machine a query leaves everything as it was.  So queries can be put into a run, or
taken out of it, and no other call is answered differently, roots included.
-/

/-! ## Forests that differ in their ways only -/

/-- Two sound forests with the same items, ranks and roots. -/
structure Twins (plain shorter : Forest keyOf) : Prop where
  sound : plain.Sound
  alike : Alike plain shorter

namespace Twins

variable {plain shorter other : Forest keyOf}

theorem refl {forest : Forest keyOf} (sound : forest.Sound) : Twins forest forest :=
  ⟨sound, Alike.refl sound⟩

theorem trans_alike (twins : Twins plain shorter) (alike : Alike shorter other) : Twins plain other :=
  ⟨twins.sound, twins.alike.trans alike⟩

theorem parent_eq_self_iff (twins : Twins plain shorter) (number : Nat) :
    shorter.parent number = number ↔ plain.parent number = number := by
  rw [← twins.alike.sound.root_eq_self_iff, twins.alike.root_eq, twins.sound.root_eq_self_iff]

/-- A merge reads ranks and roots, and twins have the same. -/
theorem merge (twins : Twins plain shorter) {first second : Nat}
    (firstTop : plain.parent first = first) (secondTop : plain.parent second = second)
    (firstInside : first < plain.size) (secondInside : second < plain.size)
    (different : first ≠ second) : Twins (plain.merge first second) (shorter.merge first second) := by
  have size_eq := twins.alike.size_eq
  have heir_eq : shorter.heir first second = plain.heir first second := by
    rw [heir, heir, twins.alike.rank_eq, twins.alike.rank_eq]
  rcases twins.sound.root_merge first second firstTop secondTop firstInside secondInside different with
    ⟨sound, items_eq, root_eq⟩
  rcases twins.alike.sound.root_merge first second ((twins.parent_eq_self_iff first).mpr firstTop)
    ((twins.parent_eq_self_iff second).mpr secondTop) (size_eq ▸ firstInside) (size_eq ▸ secondInside)
    different with ⟨shorterSound, shorterItems_eq, shorterRoot_eq⟩
  refine ⟨sound, shorterSound, ?_, ?_, ?_⟩
  · rw [shorterItems_eq, items_eq, twins.alike.items_eq]
  · intro number
    rw [rank_merge _ (size_eq ▸ firstInside), rank_merge _ firstInside]
    simp only [twins.alike.rank_eq]
  · intro number
    rw [shorterRoot_eq, root_eq, heir_eq]
    simp only [twins.alike.root_eq]

end Twins

section Keys

variable [DecidableEq K]

/-! ## A machine that only follows links -/

namespace Plain

/-- As `Forest.union`, without shortening any way. -/
def union (forest : Forest keyOf) (a b : A) : Bool × Forest keyOf :=
  let (numberA, forest) := forest.add a
  let rootA := forest.root numberA
  let (numberB, forest) := forest.add b
  let rootB := forest.root numberB
  if rootA = rootB then (false, forest) else (true, forest.merge rootA rootB)

/-- As `Forest.connected`, without shortening any way. -/
def connected (forest : Forest keyOf) (a b : A) : Bool :=
  match forest.index? (keyOf a), forest.index? (keyOf b) with
  | some numberA, some numberB => forest.root numberA = forest.root numberB
  | _, _ => keyOf a = keyOf b

/-- Carry out an operation.  A query gives the forest back as it is. -/
def perform (forest : Forest keyOf) : Operation A -> Answer A × Forest keyOf
  | .add a => (forest.add a).map .number id
  | .has a => (.truth (forest.has a), forest)
  | .find number =>
      if 0 ≤ number ∧ number < forest.size then (.number (forest.root number.toNat), forest)
      else (.refusal (outOfRange number), forest)
  | .union a b => (union forest a b).map .truth id
  | .connected a b => (.truth (connected forest a b), forest)
  | .visit => (.visits (forest.items.zip ((List.range forest.size).map forest.root)), forest)

end Plain

/-! ## The two machines side by side -/

namespace Twins

variable {plain shorter : Forest keyOf}

theorem has_eq (twins : Twins plain shorter) (a : A) : shorter.has a = plain.has a := by
  rw [has, has, index?_congr twins.alike.items_eq]

/-- Both machines find the same two roots, and merge them alike if they differ. -/
theorem union (twins : Twins plain shorter) (a b : A) :
    (shorter.union a b).1 = (Plain.union plain a b).1 ∧
      Twins (Plain.union plain a b).2 (shorter.union a b).2 := by
  let arrived := ((plain.add a).2.add b).2
  let rootA := (plain.add a).2.root (plain.add a).1
  let rootB := arrived.root ((plain.add a).2.add b).1
  have soundA := twins.sound.add a
  have sound : arrived.Sound := soundA.add b
  have representative_a : arrived.representative (keyOf a) = .inl rootA := by
    have found := soundA.index?_add_of_some b (twins.sound.index?_add a)
    rw [representative_of_index? _ found, soundA.root_add]
  have representative_b : arrived.representative (keyOf b) = .inl rootB :=
    representative_of_index? _ (soundA.index?_add b)
  rcases twins.alike.sound.union_cases a b with ⟨ready, top, bottom, isReady, union_eq⟩
  have readyTwins : Twins arrived ready :=
    Twins.trans_alike ⟨sound, (twins.alike.add twins.sound a).add soundA b⟩ isReady.alike
  have top_eq : top = rootA := by
    have represented := isReady.representative_a
    rw [readyTwins.alike.representative_eq, representative_a] at represented
    exact (Sum.inl.inj represented).symm
  have bottom_eq : bottom = rootB := by
    have represented := isReady.representative_b
    rw [readyTwins.alike.representative_eq, representative_b] at represented
    exact (Sum.inl.inj represented).symm
  have plain_eq : Plain.union plain a b =
      if rootA = rootB then (false, arrived) else (true, arrived.merge rootA rootB) := rfl
  rw [union_eq, plain_eq, top_eq, bottom_eq]
  by_cases same : rootA = rootB
  · rw [if_pos same, if_pos same]
    exact ⟨rfl, readyTwins⟩
  · rw [if_neg same, if_neg same]
    have topA := sound.parent_of_representative representative_a
    have topB := sound.parent_of_representative representative_b
    exact ⟨rfl, readyTwins.merge topA.1 topB.1 topA.2 topB.2 same⟩

theorem connected (twins : Twins plain shorter) (a b : A) :
    (shorter.connected a b).1 = Plain.connected plain a b := by
  rw [Forest.connected, Plain.connected, index?_congr twins.alike.items_eq,
    index?_congr twins.alike.items_eq]
  cases plain.index? (keyOf a) with
  | none => rfl
  | some numberA =>
      cases plain.index? (keyOf b) with
      | none => rfl
      | some numberB =>
          have first := twins.alike.sound.alike_find numberA
          change decide (shorter.root numberA = (shorter.find numberA).2.root numberB) = _
          rw [first.root_eq, twins.alike.root_eq, twins.alike.root_eq]

/-- One operation: both machines answer the same, and only their ways differ afterwards. -/
theorem perform (twins : Twins plain shorter) (operation : Operation A) :
    (shorter.perform operation).1 = (Plain.perform plain operation).1 ∧
      Twins (Plain.perform plain operation).2 (shorter.perform operation).2 := by
  cases operation with
  | add a =>
      refine ⟨congrArg Answer.number (add_fst_congr twins.alike.items_eq a), ?_⟩
      exact ⟨twins.sound.add a, twins.alike.add twins.sound a⟩
  | has a => exact ⟨congrArg Answer.truth (twins.has_eq a), twins⟩
  | find number =>
      rw [Plain.perform, ← twins.alike.size_eq]
      by_cases inside : 0 ≤ number ∧ number < shorter.size
      · rw [perform_find _ inside, if_pos inside]
        refine ⟨congrArg Answer.number (twins.alike.root_eq number.toNat), ?_⟩
        exact twins.trans_alike (twins.alike.sound.alike_find number.toNat)
      · rw [perform_find_of_outside _ inside, if_neg inside]
        exact ⟨rfl, twins⟩
  | union a b =>
      have united := twins.union a b
      exact ⟨congrArg Answer.truth united.1, united.2⟩
  | connected a b =>
      refine ⟨congrArg Answer.truth (twins.connected a b), ?_⟩
      exact twins.trans_alike (twins.alike.sound.alike_connected a b)
  | visit =>
      have found := twins.alike.sound.findAll_spec (List.range shorter.size)
      have roots_eq : (shorter.findAll (List.range shorter.size)).1 =
          (List.range plain.size).map plain.root := by
        rw [found.1, twins.alike.size_eq]
        exact List.map_congr_left (fun number _ => twins.alike.root_eq number)
      refine ⟨?_, twins.trans_alike found.2⟩
      change Answer.visits (shorter.items.zip (shorter.findAll (List.range shorter.size)).1) = _
      rw [roots_eq, twins.alike.items_eq]
      rfl

end Twins

/-! ## Runs -/

/-- The answers that a machine gives to operations, one after another. -/
def replies {S : Type} (step : S -> Operation A -> Answer A × S) (state : S) :
    List (Operation A) -> List (Answer A)
  | [] => []
  | operation :: rest => (step state operation).1 :: replies step (step state operation).2 rest

/-- The answers to several operations on a forest that is empty at first. -/
def answers (keyOf : A -> K) (operations : List (Operation A)) : List (Answer A) :=
  replies (fun (forest : Forest keyOf) operation => forest.perform operation) {} operations

namespace Plain

def answers (keyOf : A -> K) (operations : List (Operation A)) : List (Answer A) :=
  replies (fun (forest : Forest keyOf) operation => perform forest operation) {} operations

/-- The forest of the plain machine after several operations on an empty one. -/
def run (keyOf : A -> K) (operations : List (Operation A)) : Forest keyOf :=
  operations.foldl (fun forest operation => (perform forest operation).2) {}

end Plain

/-- Any number of operations. -/
theorem Twins.foldl {plain shorter : Forest keyOf} (twins : Twins plain shorter)
    (operations : List (Operation A)) :
    replies (fun (forest : Forest keyOf) operation => forest.perform operation) shorter operations =
        replies (fun (forest : Forest keyOf) operation => Plain.perform forest operation) plain operations ∧
      Twins (operations.foldl (fun forest operation => (Plain.perform forest operation).2) plain)
        (operations.foldl (fun forest operation => (forest.perform operation).2) shorter) := by
  induction operations generalizing plain shorter with
  | nil => exact ⟨rfl, twins⟩
  | cons operation rest ih =>
      have step := twins.perform operation
      rcases ih step.2 with ⟨replies_eq, later⟩
      refine ⟨?_, later⟩
      rw [replies, replies, step.1, replies_eq]

theorem twins_run (keyOf : A -> K) (operations : List (Operation A)) :
    answers keyOf operations = Plain.answers keyOf operations ∧
      Twins (Plain.run keyOf operations) (run keyOf operations) :=
  (Twins.refl StandsFor.empty.sound).foldl operations

/-! ## Queries among other calls -/

/-- What can be asked without adding or uniting anything. -/
inductive Query (A : Type) where
  | has (a : A)
  | find (number : Int)
  | connected (a b : A)
  | visit

def Query.operation : Query A -> Operation A
  | has a => .has a
  | find number => .find number
  | connected a b => .connected a b
  | visit => .visit

/-- A call of a run, or a query that is put in beside the calls. -/
inductive Call (A : Type) where
  | main (operation : Operation A)
  | aside (query : Query A)

namespace Call

def operation : Call A -> Operation A
  | main operation => operation
  | aside query => query.operation

/-- The operation of a call that is not put in. -/
def main? : Call A -> Option (Operation A)
  | main operation => some operation
  | aside _ => none

/-- Of the answers to all calls, those to the calls that are not put in. -/
def mainAnswers : List (Call A) -> List (Answer A) -> List (Answer A)
  | main _ :: calls, answer :: rest => answer :: mainAnswers calls rest
  | aside _ :: calls, _ :: rest => mainAnswers calls rest
  | _, _ => []

end Call

namespace Plain

theorem perform_query (forest : Forest keyOf) (query : Query A) :
    (perform forest query.operation).2 = forest := by
  cases query with
  | has a => rfl
  | find number =>
      rw [Query.operation, perform]
      by_cases inside : 0 ≤ number ∧ number < forest.size
      · rw [if_pos inside]
      · rw [if_neg inside]
  | connected a b => rfl
  | visit => rfl

/-- Queries leave no trace in the plain machine. -/
theorem mainAnswers_replies (forest : Forest keyOf) (calls : List (Call A)) :
    Call.mainAnswers calls (replies (fun (forest : Forest keyOf) operation => perform forest operation)
        forest (calls.map Call.operation)) =
      replies (fun (forest : Forest keyOf) operation => perform forest operation) forest
        (calls.filterMap Call.main?) ∧
      (calls.map Call.operation).foldl (fun forest operation => (perform forest operation).2) forest =
        (calls.filterMap Call.main?).foldl (fun forest operation => (perform forest operation).2) forest := by
  induction calls generalizing forest with
  | nil => exact ⟨rfl, rfl⟩
  | cons call rest ih =>
      cases call with
      | main operation =>
          rcases ih (perform forest operation).2 with ⟨answers_eq, run_eq⟩
          exact ⟨congrArg ((perform forest operation).1 :: ·) answers_eq, run_eq⟩
      | aside query =>
          have unchanged := perform_query forest query
          rcases ih forest with ⟨answers_eq, run_eq⟩
          simp only [List.map_cons, Call.operation, List.filterMap_cons, Call.main?, replies,
            Call.mainAnswers, List.foldl_cons, unchanged]
          exact ⟨answers_eq, run_eq⟩

end Plain

/-- A forest that shortens ways answers every operation as one that only follows links.  Hence no
query that is put into a run or taken out of it changes the answer to another call or the number of
items. -/
theorem answers_unshortened (keyOf : A -> K) :
    (forall operations : List (Operation A),
      answers keyOf operations = Plain.answers keyOf operations ∧
        (run keyOf operations).size = (Plain.run keyOf operations).size) ∧
      (forall calls : List (Call A),
        Call.mainAnswers calls (answers keyOf (calls.map Call.operation)) =
            answers keyOf (calls.filterMap Call.main?) ∧
          (run keyOf (calls.map Call.operation)).size = (run keyOf (calls.filterMap Call.main?)).size) := by
  have size_eq (operations : List (Operation A)) :
      (run keyOf operations).size = (Plain.run keyOf operations).size :=
    (twins_run keyOf operations).2.alike.size_eq
  refine ⟨fun operations => ⟨(twins_run keyOf operations).1, size_eq operations⟩, fun calls => ?_⟩
  rcases Plain.mainAnswers_replies ({} : Forest keyOf) calls with ⟨answers_eq, run_eq⟩
  constructor
  · rw [(twins_run keyOf _).1, (twins_run keyOf _).1]
    exact answers_eq
  · rw [size_eq, size_eq]
    exact congrArg size run_eq

-- The last item hangs below the third one until it is asked for.
example : let operations : List (Operation Nat) := [.union 1 2, .union 3 4, .union 1 3, .find 3]
    (Plain.run (fun item => item) operations).parents = [0, 0, 0, 2] ∧
      (run (fun item => item) operations).parents = [0, 0, 0, 0] := by
  decide +kernel

end Keys

end Forest
end Monotype
