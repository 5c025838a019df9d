import Monotype.Forest
import Mathlib.Data.List.Nodup

namespace Monotype
namespace Forest

variable {A K : Type} {keyOf : A -> K}

/-!
# Roots of a sound forest

A forest is sound if its links stay inside it, ranks grow along every link and no
key occurs twice.  In a sound forest the search for a root never runs out of
steps, because fewer and fewer nodes have a higher rank than the node reached so
far.

Two kinds of change are made to the links.  A shortcut lets a node point straight
at its root; it moves no root, and `compress` is a sequence of shortcuts.  A graft
hangs one root below another; the nodes of its set get the other root, and `merge`
is a graft.
-/

/-- What every operation keeps.  A number without a node is its own parent, so
that links need no bound in `rank_lt`. -/
structure Sound (forest : Forest keyOf) : Prop where
  parent_lt : forall number, number < forest.size -> forest.parent number < forest.size
  rank_lt : forall number, forest.parent number ≠ number ->
    forest.rank number < forest.rank (forest.parent number)
  keys_nodup : (forest.items.map keyOf).Nodup

/-! ## Nodes after a change of one link or one rank -/

@[simp] theorem length_items (forest : Forest keyOf) : forest.items.length = forest.size := by
  simp [items, size]

theorem parent_of_size_le (forest : Forest keyOf) (number : Nat)
    (outside : forest.size ≤ number) : forest.parent number = number := by
  have absent : forest.nodes[number]? = none := Array.getElem?_eq_none outside
  rw [parent, absent]

theorem lt_size_of_parent_ne (forest : Forest keyOf) (number : Nat)
    (linked : forest.parent number ≠ number) : number < forest.size := by
  apply Nat.lt_of_not_le
  intro outside
  exact linked (forest.parent_of_size_le number outside)

theorem parent_eq (forest : Forest keyOf) (number : Nat) :
    forest.parent number = (forest.nodes[number]?.map Node.parent).getD number := by
  rw [parent]
  cases forest.nodes[number]? <;> rfl

theorem rank_eq (forest : Forest keyOf) (number : Nat) :
    forest.rank number = (forest.nodes[number]?.map Node.rank).getD 0 := by
  rw [rank]
  cases forest.nodes[number]? <;> rfl

section Modify

variable {B : Type} {field : Node keyOf -> B} {change : Node keyOf -> Node keyOf}

/-- A field that the change of one node keeps is the same in all nodes. -/
theorem map_getElem?_modify (kept : forall node, field (change node) = field node)
    (nodes : Array (Node keyOf)) (changed number : Nat) :
    (nodes.modify changed change)[number]?.map field = nodes[number]?.map field := by
  rw [Array.getElem?_modify]
  split
  · cases nodes[number]? with
    | none => rfl
    | some node => exact congrArg some (kept node)
  · rfl

/-- A field that the change of one node sets is the same in all other nodes. -/
theorem map_getElem?_modify_of_lt {value : B} (set : forall node, field (change node) = value)
    {nodes : Array (Node keyOf)} {changed : Nat} (inside : changed < nodes.size) (number : Nat) :
    (nodes.modify changed change)[number]?.map field =
      if number = changed then some value else nodes[number]?.map field := by
  rw [Array.getElem?_modify]
  by_cases same : number = changed
  · subst same
    rw [if_pos rfl, if_pos rfl, Array.getElem?_eq_getElem inside]
    exact congrArg some (set _)
  · rw [if_neg same, if_neg (Ne.symm same)]

theorem map_toList_modify (kept : forall node, field (change node) = field node)
    (nodes : Array (Node keyOf)) (changed : Nat) :
    (nodes.modify changed change).toList.map field = nodes.toList.map field := by
  apply List.ext_getElem?
  intro number
  rw [List.getElem?_map, List.getElem?_map, Array.getElem?_toList, Array.getElem?_toList]
  exact map_getElem?_modify kept nodes changed number

end Modify

@[simp] theorem size_link (forest : Forest keyOf) (child top : Nat) :
    (forest.link child top).size = forest.size := by
  simp [link, size]

@[simp] theorem items_link (forest : Forest keyOf) (child top : Nat) :
    (forest.link child top).items = forest.items := by
  apply map_toList_modify
  intro node
  rfl

@[simp] theorem rank_link (forest : Forest keyOf) (child top number : Nat) :
    (forest.link child top).rank number = forest.rank number := by
  rw [rank_eq, rank_eq]
  refine congrArg (fun found => Option.getD found 0) ?_
  apply map_getElem?_modify
  intro node
  rfl

theorem parent_link (forest : Forest keyOf) (child top number : Nat)
    (inside : child < forest.size) :
    (forest.link child top).parent number =
      if number = child then top else forest.parent number := by
  have set : (forest.link child top).nodes[number]?.map Node.parent =
      if number = child then some top else forest.nodes[number]?.map Node.parent := by
    apply map_getElem?_modify_of_lt _ inside
    intro node
    rfl
  rw [parent_eq, set, parent_eq]
  split <;> rfl

@[simp] theorem items_promote (forest : Forest keyOf) (number height : Nat) :
    (forest.promote number height).items = forest.items := by
  apply map_toList_modify
  intro node
  rfl

@[simp] theorem parent_promote (forest : Forest keyOf) (number height other : Nat) :
    (forest.promote number height).parent other = forest.parent other := by
  rw [parent_eq, parent_eq]
  refine congrArg (fun found => Option.getD found other) ?_
  apply map_getElem?_modify
  intro node
  rfl

theorem rank_promote (forest : Forest keyOf) (number height other : Nat)
    (inside : number < forest.size) :
    (forest.promote number height).rank other =
      if other = number then height else forest.rank other := by
  have set : (forest.promote number height).nodes[other]?.map Node.rank =
      if other = number then some height else forest.nodes[other]?.map Node.rank := by
    apply map_getElem?_modify_of_lt _ inside
    intro node
    rfl
  rw [rank_eq, set, rank_eq]
  split <;> rfl

/-! ## The search for a root -/

/-- The number of nodes with a higher rank.  It drops with every link that is
followed. -/
def above (forest : Forest keyOf) (number : Nat) : Nat :=
  ((List.range forest.size).filter (fun other => forest.rank number < forest.rank other)).length

theorem above_le_size (forest : Forest keyOf) (number : Nat) :
    forest.above number ≤ forest.size := by
  have bound := List.length_filter_le
    (fun other => decide (forest.rank number < forest.rank other)) (List.range forest.size)
  rwa [List.length_range] at bound

namespace Sound

variable {forest : Forest keyOf}

theorem above_parent_lt (sound : forest.Sound) (number : Nat)
    (linked : forest.parent number ≠ number) :
    forest.above (forest.parent number) < forest.above number := by
  have higher := sound.rank_lt number linked
  have inside := sound.parent_lt number (forest.lt_size_of_parent_ne number linked)
  let above (low : Nat) := (List.range forest.size).filter (fun other => forest.rank low < forest.rank other)
  have narrowed : above (forest.parent number) =
      (above number).filter (fun other => forest.rank (forest.parent number) < forest.rank other) := by
    simp only [above, List.filter_filter]
    apply List.filter_congr
    intro other _
    by_cases highest : forest.rank (forest.parent number) < forest.rank other
    · simp [highest, Nat.lt_trans higher highest]
    · simp [highest]
  change (above (forest.parent number)).length < (above number).length
  rw [narrowed]
  -- The parent is counted for the node but not for itself.
  apply List.length_filter_lt_length_iff_exists.mpr
  refine ⟨forest.parent number, ?_, ?_⟩
  · simp [above, inside, higher]
  · simp

/-- Follow links upwards: what holds of every root, and of a node whenever it
holds of its parent, holds of every number. -/
theorem upward_induction (sound : forest.Sound) {motive : Nat -> Prop}
    (root : forall number, forest.parent number = number -> motive number)
    (step : forall number, forest.parent number ≠ number ->
      motive (forest.parent number) -> motive number)
    (number : Nat) : motive number := by
  by_cases top : forest.parent number = number
  · exact root number top
  · exact step number top (sound.upward_induction root step (forest.parent number))
termination_by forest.above number
decreasing_by exact sound.above_parent_lt number top

end Sound

theorem climb_of_parent_eq (forest : Forest keyOf) (steps number : Nat)
    (top : forest.parent number = number) : forest.climb steps number = number := by
  cases steps with
  | zero => rfl
  | succ steps => rw [climb, if_pos top]

theorem root_of_parent_eq (forest : Forest keyOf) (number : Nat)
    (top : forest.parent number = number) : forest.root number = number :=
  forest.climb_of_parent_eq forest.size number top

theorem root_of_size_le (forest : Forest keyOf) (number : Nat)
    (outside : forest.size ≤ number) : forest.root number = number :=
  forest.root_of_parent_eq number (forest.parent_of_size_le number outside)

namespace Sound

variable {forest : Forest keyOf}

/-- Steps beyond the number of higher nodes change nothing. -/
theorem climb_succ (sound : forest.Sound) (steps number : Nat)
    (enough : forest.above number ≤ steps) :
    forest.climb (steps + 1) number = forest.climb steps number := by
  induction steps generalizing number with
  | zero =>
      have top : forest.parent number = number := by
        apply Classical.byContradiction
        intro linked
        have fewer := sound.above_parent_lt number linked
        omega
      rw [forest.climb_of_parent_eq 1 number top, climb]
  | succ steps ih =>
      by_cases top : forest.parent number = number
      · rw [forest.climb_of_parent_eq _ number top, forest.climb_of_parent_eq _ number top]
      · have fewer := sound.above_parent_lt number top
        rw [climb, if_neg top, ih (forest.parent number) (by omega), climb, if_neg top]

theorem root_parent (sound : forest.Sound) (number : Nat) :
    forest.root (forest.parent number) = forest.root number := by
  by_cases top : forest.parent number = number
  · rw [top]
  · have fewer := sound.above_parent_lt number top
    have bound := forest.above_le_size number
    have nonempty : forest.size ≠ 0 := by omega
    rcases Nat.exists_eq_succ_of_ne_zero nonempty with ⟨steps, size_eq⟩
    rw [root, root, size_eq, sound.climb_succ steps (forest.parent number) (by omega)]
    rw [climb, if_neg top]

/-- The search ends at a node that is its own parent. -/
theorem parent_root (sound : forest.Sound) (number : Nat) :
    forest.parent (forest.root number) = forest.root number := by
  induction number using sound.upward_induction with
  | root number top => rw [forest.root_of_parent_eq number top, top]
  | step number _ ih => rwa [sound.root_parent number] at ih

theorem root_eq_self_iff (sound : forest.Sound) (number : Nat) :
    forest.root number = number ↔ forest.parent number = number := by
  constructor
  · intro same
    have top := sound.parent_root number
    rwa [same] at top
  · exact forest.root_of_parent_eq number

@[simp] theorem root_root (sound : forest.Sound) (number : Nat) :
    forest.root (forest.root number) = forest.root number :=
  forest.root_of_parent_eq _ (sound.parent_root number)

theorem root_lt (sound : forest.Sound) (number : Nat) (inside : number < forest.size) :
    forest.root number < forest.size := by
  induction number using sound.upward_induction with
  | root number top => rwa [forest.root_of_parent_eq number top]
  | step number _ ih =>
      rw [← sound.root_parent number]
      exact ih (sound.parent_lt number inside)

theorem rank_lt_root (sound : forest.Sound) (number : Nat) (below : forest.root number ≠ number) :
    forest.rank number < forest.rank (forest.root number) := by
  induction number using sound.upward_induction with
  | root number top => exact absurd (forest.root_of_parent_eq number top) below
  | step number linked ih =>
      have first := sound.rank_lt number linked
      by_cases last : forest.root (forest.parent number) = forest.parent number
      · rwa [← sound.root_parent number, last]
      · rw [← sound.root_parent number]
        exact Nat.lt_trans first (ih last)

/-- Roots depend on the links only. -/
theorem root_congr (sound : forest.Sound) {other : Forest keyOf} (otherSound : other.Sound)
    (same : forall number, other.parent number = forest.parent number) (number : Nat) :
    other.root number = forest.root number := by
  induction number using sound.upward_induction with
  | root number top =>
      rw [forest.root_of_parent_eq number top, other.root_of_parent_eq number ((same number).trans top)]
  | step number _ ih => rw [← sound.root_parent number, ← otherSound.root_parent number, same, ih]

/-! ## Shortcuts -/

/-- A node that points straight at its root leaves every root in its place. -/
theorem shortcut (sound : forest.Sound) (number : Nat) (below : forest.root number ≠ number) :
    (forest.link number (forest.root number)).Sound := by
  have linked : forest.parent number ≠ number :=
    fun top => below (forest.root_of_parent_eq number top)
  have inside := forest.lt_size_of_parent_ne number linked
  refine ⟨?_, ?_, ?_⟩
  · intro other otherInside
    rw [size_link] at otherInside
    rw [parent_link _ _ _ _ inside, size_link]
    by_cases same : other = number
    · rw [if_pos same]
      exact sound.root_lt number inside
    · rw [if_neg same]
      exact sound.parent_lt other otherInside
  · intro other otherLinked
    rw [parent_link _ _ _ _ inside] at otherLinked ⊢
    rw [rank_link, rank_link]
    by_cases same : other = number
    · rw [if_pos same, same]
      exact sound.rank_lt_root number below
    · rw [if_neg same] at otherLinked ⊢
      exact sound.rank_lt other otherLinked
  · rw [items_link]
    exact sound.keys_nodup

theorem root_shortcut (sound : forest.Sound) (number : Nat) (below : forest.root number ≠ number)
    (other : Nat) :
    (forest.link number (forest.root number)).root other = forest.root other := by
  have linked : forest.parent number ≠ number :=
    fun top => below (forest.root_of_parent_eq number top)
  have inside := forest.lt_size_of_parent_ne number linked
  have shorter := sound.shortcut number below
  have parent_eq := fun third => forest.parent_link number (forest.root number) third inside
  have kept : forall top, forest.parent top = top ->
      (forest.link number (forest.root number)).root top = top := by
    intro top atTop
    have different : top ≠ number := fun same => linked (same ▸ atTop)
    apply root_of_parent_eq
    rw [parent_eq, if_neg different, atTop]
  induction other using sound.upward_induction with
  | root other top => rw [kept other top, forest.root_of_parent_eq other top]
  | step other _ ih =>
      rw [← shorter.root_parent other, parent_eq]
      by_cases same : other = number
      · rw [if_pos same, same]
        exact kept _ (sound.parent_root number)
      · rw [if_neg same, ih, sound.root_parent]

end Sound

/-- A sound forest with the same items, ranks and roots as another.  Only the ways
to the roots may differ. -/
structure Alike (forest other : Forest keyOf) : Prop where
  sound : other.Sound
  items_eq : other.items = forest.items
  rank_eq : forall number, other.rank number = forest.rank number
  root_eq : forall number, other.root number = forest.root number

namespace Alike

variable {forest other third : Forest keyOf}

theorem refl (sound : forest.Sound) : Alike forest forest :=
  ⟨sound, rfl, fun _ => rfl, fun _ => rfl⟩

theorem trans (first : Alike forest other) (second : Alike other third) : Alike forest third where
  sound := second.sound
  items_eq := second.items_eq.trans first.items_eq
  rank_eq number := (second.rank_eq number).trans (first.rank_eq number)
  root_eq number := (second.root_eq number).trans (first.root_eq number)

end Alike

/-- The root that a merge leaves: the one of higher rank, and the first of two equals. -/
def heir (forest : Forest keyOf) (first second : Nat) : Nat :=
  if forest.rank first < forest.rank second then second else first

theorem heir_eq (forest : Forest keyOf) (first second : Nat) :
    forest.heir first second = first ∨ forest.heir first second = second := by
  rw [heir]
  by_cases lower : forest.rank first < forest.rank second
  · exact Or.inr (if_pos lower)
  · exact Or.inl (if_neg lower)

namespace Sound

variable {forest : Forest keyOf}

theorem alike_shortcut (sound : forest.Sound) (number : Nat) (below : forest.root number ≠ number) :
    Alike forest (forest.link number (forest.root number)) where
  sound := sound.shortcut number below
  items_eq := forest.items_link number (forest.root number)
  rank_eq := forest.rank_link number (forest.root number)
  root_eq := sound.root_shortcut number below

/-- Shortcuts for several nodes below one root. -/
theorem alike_shortcuts (sound : forest.Sound) (top : Nat) (passed : List Nat)
    (below : forall number, number ∈ passed -> forest.root number = top ∧ number ≠ top) :
    Alike forest (passed.foldl (fun shorter number => shorter.link number top) forest) := by
  induction passed generalizing forest with
  | nil => exact Alike.refl sound
  | cons number rest ih =>
      have first := below number List.mem_cons_self
      have step : Alike forest (forest.link number top) := by
        have shortened := sound.alike_shortcut number (fun same => first.2 (same ▸ first.1))
        rwa [first.1] at shortened
      rw [List.foldl_cons]
      refine step.trans (ih step.sound ?_)
      intro later member
      rw [step.root_eq]
      exact below later (List.mem_cons_of_mem number member)

theorem root_of_mem_ascent (sound : forest.Sound) (steps number passed : Nat)
    (member : passed ∈ forest.ascent steps number) :
    forest.root passed = forest.root number ∧ passed ≠ forest.root number := by
  induction steps generalizing number with
  | zero => simp [ascent] at member
  | succ steps ih =>
      by_cases top : forest.parent number = number
      · simp [ascent, top] at member
      · simp only [ascent, if_neg top, List.mem_cons] at member
        rcases member with same | later
        · subst passed
          refine ⟨rfl, fun atTop => top ?_⟩
          exact (sound.root_eq_self_iff number).mp atTop.symm
        · have above := ih (forest.parent number) later
          rwa [sound.root_parent number] at above

/-- Compression moves no root. -/
theorem alike_compress (sound : forest.Sound) (number : Nat) :
    Alike forest (forest.compress number) :=
  sound.alike_shortcuts (forest.root number) (forest.ascent forest.size number)
    (fun passed member => sound.root_of_mem_ascent forest.size number passed member)

theorem alike_find (sound : forest.Sound) (number : Nat) :
    Alike forest (forest.find number).2 :=
  sound.alike_compress number

/-- Looking for several roots in turn finds the roots of the forest at the start. -/
theorem findAll_spec (sound : forest.Sound) (numbers : List Nat) :
    (forest.findAll numbers).1 = numbers.map forest.root ∧
      Alike forest (forest.findAll numbers).2 := by
  induction numbers generalizing forest with
  | nil => exact ⟨rfl, Alike.refl sound⟩
  | cons number rest ih =>
      have first := sound.alike_find number
      rcases ih first.sound with ⟨roots, later⟩
      refine ⟨?_, first.trans later⟩
      change forest.root number :: ((forest.find number).2.findAll rest).1 = _
      rw [roots, List.map_cons]
      congr 1
      exact List.map_congr_left (fun other _ => first.root_eq other)

/-! ## Grafts -/

/-- Hang the root `loser` below the root `winner`.  The ranks may change at
`winner` only, which must end up higher than `loser`. -/
theorem graft (sound : forest.Sound) {grown : Forest keyOf} {loser winner : Nat}
    (loserTop : forest.parent loser = loser) (winnerTop : forest.parent winner = winner)
    (winnerInside : winner < forest.size) (different : loser ≠ winner)
    (items_eq : grown.items = forest.items)
    (parent_eq : forall number,
      grown.parent number = if number = loser then winner else forest.parent number)
    (rank_eq : forall number, number ≠ winner -> grown.rank number = forest.rank number)
    (rank_le : forest.rank winner ≤ grown.rank winner)
    (lower : grown.rank loser < grown.rank winner) :
    grown.Sound ∧ forall number, grown.root number =
      if forest.root number = loser then winner else forest.root number := by
  have size_eq : grown.size = forest.size := by
    rw [← length_items, ← length_items, items_eq]
  have grownSound : grown.Sound := by
    refine ⟨?_, ?_, ?_⟩
    · intro number inside
      rw [size_eq] at inside ⊢
      rw [parent_eq]
      by_cases same : number = loser
      · rwa [if_pos same]
      · rw [if_neg same]
        exact sound.parent_lt number inside
    · intro number linked
      rw [parent_eq] at linked ⊢
      by_cases same : number = loser
      · rwa [if_pos same, same]
      · rw [if_neg same] at linked ⊢
        have higher := sound.rank_lt number linked
        have notWinner : number ≠ winner := fun equal => linked (equal ▸ winnerTop)
        rw [rank_eq number notWinner]
        by_cases toWinner : forest.parent number = winner
        · rw [toWinner] at higher ⊢
          exact Nat.lt_of_lt_of_le higher rank_le
        · rwa [rank_eq _ toWinner]
    · rw [items_eq]
      exact sound.keys_nodup
  refine ⟨grownSound, ?_⟩
  have winnerRoot : grown.root winner = winner := by
    apply root_of_parent_eq
    rw [parent_eq, if_neg different.symm, winnerTop]
  intro number
  induction number using sound.upward_induction with
  | root number top =>
      rw [forest.root_of_parent_eq number top]
      by_cases same : number = loser
      · rw [if_pos same, ← grownSound.root_parent, parent_eq, if_pos same, winnerRoot]
      · rw [if_neg same]
        apply root_of_parent_eq
        rw [parent_eq, if_neg same, top]
  | step number linked ih =>
      have notLoser : number ≠ loser := fun equal => linked (equal ▸ loserTop)
      rw [← grownSound.root_parent, parent_eq, if_neg notLoser, ih, sound.root_parent]

/-- A merge gives the heir of the two roots to all nodes that had either of them, and
leaves the other nodes alone. -/
theorem root_merge (sound : forest.Sound) (first second : Nat)
    (firstTop : forest.parent first = first) (secondTop : forest.parent second = second)
    (firstInside : first < forest.size) (secondInside : second < forest.size)
    (different : first ≠ second) :
    (forest.merge first second).Sound ∧ (forest.merge first second).items = forest.items ∧
      forall number, (forest.merge first second).root number =
        if forest.root number = first ∨ forest.root number = second then forest.heir first second
        else forest.root number := by
  by_cases firstLower : forest.rank first < forest.rank second
  · rw [Forest.merge, if_pos firstLower, heir, if_pos firstLower]
    have grafted := sound.graft firstTop secondTop secondInside different
      (forest.items_link first second)
      (fun number => forest.parent_link first second number firstInside)
      (fun number _ => forest.rank_link first second number)
      (Nat.le_of_eq (forest.rank_link first second second).symm)
      (by rwa [rank_link, rank_link])
    refine ⟨grafted.1, forest.items_link first second, fun number => ?_⟩
    rw [grafted.2]
    by_cases atSecond : forest.root number = second <;> simp [atSecond, different.symm]
  · rw [Forest.merge, if_neg firstLower, heir, if_neg firstLower]
    by_cases secondLower : forest.rank second < forest.rank first
    · rw [if_pos secondLower]
      have grafted := sound.graft secondTop firstTop firstInside different.symm
        (forest.items_link second first)
        (fun number => forest.parent_link second first number secondInside)
        (fun number _ => forest.rank_link second first number)
        (Nat.le_of_eq (forest.rank_link second first first).symm)
        (by rwa [rank_link, rank_link])
      refine ⟨grafted.1, forest.items_link second first, fun number => ?_⟩
      rw [grafted.2]
      by_cases atFirst : forest.root number = first <;> simp [atFirst, different]
    · rw [if_neg secondLower]
      have rank_eq : forall number,
          ((forest.link second first).promote first (forest.rank first + 1)).rank number =
            if number = first then forest.rank first + 1 else forest.rank number := by
        intro number
        rw [rank_promote _ _ _ _ (by rwa [size_link]), rank_link]
      have items_eq :
          ((forest.link second first).promote first (forest.rank first + 1)).items = forest.items := by
        rw [items_promote, items_link]
      have grafted := sound.graft secondTop firstTop firstInside different.symm items_eq
        (fun number => by rw [parent_promote, parent_link _ _ _ _ secondInside])
        (fun number notFirst => by rw [rank_eq, if_neg notFirst])
        (by rw [rank_eq, if_pos rfl]; exact Nat.le_succ _)
        (by rw [rank_eq, rank_eq, if_neg different.symm, if_pos rfl]; omega)
      refine ⟨grafted.1, items_eq, fun number => ?_⟩
      rw [grafted.2]
      by_cases atFirst : forest.root number = first <;> simp [atFirst, different]

/-- Which of the two roots a merge leaves is of no concern to the sets. -/
theorem merge (sound : forest.Sound) (first second : Nat)
    (firstTop : forest.parent first = first) (secondTop : forest.parent second = second)
    (firstInside : first < forest.size) (secondInside : second < forest.size)
    (different : first ≠ second) :
    (forest.merge first second).Sound ∧ (forest.merge first second).items = forest.items ∧
      exists winner, (winner = first ∨ winner = second) ∧ forall number,
        (forest.merge first second).root number =
          if forest.root number = first ∨ forest.root number = second then winner
          else forest.root number := by
  rcases sound.root_merge first second firstTop secondTop firstInside secondInside different with
    ⟨merged, items_eq, root_eq⟩
  exact ⟨merged, items_eq, forest.heir first second, forest.heir_eq first second, root_eq⟩

end Sound
end Forest
end Monotype
