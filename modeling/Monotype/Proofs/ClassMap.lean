import Monotype.Unifier
import Monotype.Proofs.Forest.Partition
import Monotype.Proofs.Table

namespace Monotype

/-!
# The classes of a list of equations

Terms are told apart by their keys.  The classes of a list of equations are those
of the least equivalence between keys that holds for both sides of every equation.
The class map shows nothing else: which root stands for a class and how the links
run is forgotten, because classes are numbered by their earliest members.

`ClassMap.Canonical` says what a class map shows of an equivalence, and
`ClassMap.Canonical.unique` that nothing is left open.
-/

namespace Equation

/-- The terms of equations in order, a left side before its right side. -/
def terms (equations : List Equation) : List Term :=
  equations.flatMap (fun equation => [equation.left, equation.right])

/-- The terms of equations in order of first appearance; of several terms with one
key only the first. -/
def seen (equations : List Equation) : List Term :=
  Forest.firstOfEach Term.key (terms equations)

def sides (equations : List Equation) : List (Term × Term) :=
  equations.map (fun equation => (equation.left, equation.right))

/-- The least equivalence between keys that equations force. -/
def Equates (equations : List Equation) : Text -> Text -> Prop :=
  Forest.Connected Term.key (sides equations)

end Equation

namespace ClassMap

open Classical in
/-- Whether the keys of two terms are related. -/
noncomputable def kin (related : Text -> Text -> Prop) (term other : Term) : Bool :=
  decide (related term.key other.key)

theorem kin_iff (related : Text -> Text -> Prop) (term other : Term) :
    kin related term other = true ↔ related term.key other.key := by
  simp only [kin, decide_eq_true_eq]

/-- The terms that are not related to an earlier term. -/
noncomputable def leaders (related : Text -> Text -> Prop) (seen : List Term) : List Term :=
  seen.eraseDupsBy (kin related)

/-- The terms related to a given one, in order. -/
noncomputable def relatives (related : Text -> Text -> Prop) (seen : List Term) (term : Term) :
    List Term :=
  seen.filter (kin related term)

/-- What a class map shows of an equivalence between the keys of the terms in
`seen`: the keys in order, which of them share a class, the members of a class in
order, and the classes numbered from zero in the order of their earliest members. -/
structure Canonical (map : ClassMap) (related : Text -> Text -> Prop) (seen : List Term) : Prop where
  keys_eq : map.positions.keys = seen.map Term.key
  class_of_mem : forall term, term ∈ seen ->
    exists termClass, map.find? term.key = some termClass ∧
      termClass.members = relatives related seen term
  class_eq_iff : forall left, left ∈ seen -> forall right, right ∈ seen ->
    (map.find? left.key = map.find? right.key ↔ related left.key right.key)
  ids_eq : map.classes.map TermClass.id = List.range map.classes.length
  earliest_eq : map.classes.map (fun termClass => termClass.members.head?) =
    (leaders related seen).map some

theorem mem_of_mem_leaders {related : Text -> Text -> Prop} {seen : List Term} {leader : Term}
    (member : leader ∈ leaders related seen) : leader ∈ seen :=
  Kinds.mem_of_mem_eraseDupsBy _ seen leader member

theorem head?_relatives {related : Text -> Text -> Prop} (equivalence : Equivalence related)
    {seen : List Term} {leader : Term} (member : leader ∈ leaders related seen) :
    (relatives related seen leader).head? = some leader := by
  refine Kinds.head?_filter_of_mem_eraseDupsBy (kin related) ?_ ?_ seen leader member
  · intro term
    exact (kin_iff related term term).mpr (equivalence.refl term.key)
  · intro first second third firstSecond secondThird
    apply (kin_iff related first third).mpr
    exact equivalence.trans ((kin_iff related first second).mp firstSecond)
      ((kin_iff related second third).mp secondThird)

theorem nodup_leaders {related : Text -> Text -> Prop} (equivalence : Equivalence related)
    (seen : List Term) : (leaders related seen).Nodup := by
  refine List.Pairwise.imp ?_ (Kinds.pairwise_eraseDupsBy (kin related) seen)
  intro earlier later different same
  subst later
  have self := (kin_iff related earlier earlier).mpr (equivalence.refl earlier.key)
  rw [self] at different
  cases different

/-! ## A class map from labels

A visit of a forest labels every term with a root.  The labels tell the classes
apart, and that is all that is used of them. -/

/-- A label of terms that is shared exactly by related terms. -/
def Labels (label : Term -> Nat) (related : Text -> Text -> Prop) (seen : List Term) : Prop :=
  forall left, left ∈ seen -> forall right, right ∈ seen ->
    (label left = label right ↔ related left.key right.key)

def labelled (label : Term -> Nat) (seen : List Term) : List (Term × Nat) :=
  seen.map (fun term => (term, label term))

namespace Labels

variable {related : Text -> Text -> Prop} {seen : List Term} {label : Term -> Nat}

theorem members_eq (labels : Labels label related seen) (term : Term) (member : term ∈ seen) :
    ((labelled label seen).filter (fun visit => visit.2 = label term)).map Prod.fst =
      relatives related seen term := by
  rw [labelled, List.filter_map, List.map_map]
  have first : Prod.fst ∘ (fun term => (term, label term)) = id := rfl
  rw [first, List.map_id]
  apply List.filter_congr
  intro other otherMember
  apply Bool.eq_iff_iff.mpr
  rw [kin_iff, ← labels term member other otherMember]
  exact decide_eq_true_iff.trans eq_comm

theorem roots_eq (labels : Labels label related seen) :
    ((labelled label seen).map Prod.snd).eraseDups = (leaders related seen).map label := by
  rw [labelled, List.map_map]
  apply Kinds.eraseDups_map
  intro left inLeft right inRight
  exact (kin_iff related left right).trans (labels left inLeft right inRight).symm

theorem classes_eq (labels : Labels label related seen) :
    (ofVisit (labelled label seen)).classes =
      (leaders related seen).mapIdx (fun id leader => ⟨id, relatives related seen leader⟩) := by
  simp only [ofVisit]
  rw [labels.roots_eq]
  apply List.ext_getElem
  · simp
  · intro position inside _
    simp only [List.getElem_mapIdx, List.getElem_map]
    rw [labels.members_eq]
    exact mem_of_mem_leaders (List.getElem_mem _)

theorem positions_eq (nodup : (seen.map Term.key).Nodup) (label : Term -> Nat) :
    (ofVisit (labelled label seen)).positions.entries = seen.map (fun term =>
      (term.key, ((labelled label seen).map Prod.snd).eraseDups.idxOf (label term))) := by
  simp only [ofVisit]
  rw [Table.entries_ofList]
  · rw [labelled, List.map_map]
    rfl
  · rw [labelled, List.map_map, List.map_map]
    exact nodup

theorem keys_eq (nodup : (seen.map Term.key).Nodup) (label : Term -> Nat) :
    (ofVisit (labelled label seen)).positions.keys = seen.map Term.key := by
  rw [Table.keys, positions_eq nodup, List.map_map]
  rfl

theorem find?_eq (labels : Labels label related seen) (nodup : (seen.map Term.key).Nodup) (term : Term)
    (member : term ∈ seen) :
    (ofVisit (labelled label seen)).find? term.key =
      some ⟨((labelled label seen).map Prod.snd).eraseDups.idxOf (label term),
        relatives related seen term⟩ := by
  have position : (ofVisit (labelled label seen)).positions.find? term.key =
      some (((labelled label seen).map Prod.snd).eraseDups.idxOf (label term)) := by
    apply Table.find?_of_mem
    · rwa [keys_eq nodup]
    · rw [positions_eq nodup]
      exact List.mem_map.mpr ⟨term, member, rfl⟩
  have listed : label term ∈ ((labelled label seen).map Prod.snd).eraseDups := by
    rw [List.mem_eraseDups, labelled, List.map_map]
    exact List.mem_map.mpr ⟨term, member, rfl⟩
  rw [find?, position, Option.bind_some]
  simp only [ofVisit, List.getElem?_mapIdx]
  rw [List.getElem?_idxOf listed, Option.map_some, labels.members_eq term member]

/-- Labels that tell the classes of an equivalence apart give its class map. -/
theorem canonical (labels : Labels label related seen) (nodup : (seen.map Term.key).Nodup)
    (equivalence : Equivalence related) :
    (ofVisit (labelled label seen)).Canonical related seen where
  keys_eq := keys_eq nodup label
  class_of_mem term member := ⟨_, labels.find?_eq nodup term member, rfl⟩
  class_eq_iff left inLeft right inRight := by
    rw [labels.find?_eq nodup left inLeft, labels.find?_eq nodup right inRight,
      ← labels left inLeft right inRight, Option.some.injEq, TermClass.mk.injEq]
    have listed : label left ∈ ((labelled label seen).map Prod.snd).eraseDups := by
      rw [List.mem_eraseDups, labelled, List.map_map]
      exact List.mem_map.mpr ⟨left, inLeft, rfl⟩
    rw [List.idxOf_inj listed]
    constructor
    · intro equal
      exact equal.1
    · intro same
      refine ⟨same, ?_⟩
      rw [← labels.members_eq left inLeft, ← labels.members_eq right inRight, same]
  ids_eq := by
    rw [labels.classes_eq]
    apply List.ext_getElem
    · simp
    · intro position _ _
      simp
  earliest_eq := by
    rw [labels.classes_eq]
    apply List.ext_getElem
    · simp
    · intro position _ inside
      simp only [List.getElem_map, List.getElem_mapIdx]
      exact head?_relatives equivalence (List.getElem_mem _)

end Labels

/-! ## Nothing is left open -/

namespace Canonical

variable {map : ClassMap} {related : Text -> Text -> Prop} {seen : List Term}

/-- The class at a position has that position as its number. -/
theorem id_eq (canonical : map.Canonical related seen) {position : Nat} {termClass : TermClass}
    (found : map.classes[position]? = some termClass) : termClass.id = position := by
  have inside := (List.getElem?_eq_some_iff.mp found).1
  have ids := congrArg (fun ids => ids[position]?) canonical.ids_eq
  simp only [List.getElem?_map, found, Option.map_some, List.getElem?_range inside] at ids
  exact Option.some.inj ids

theorem head?_eq (canonical : map.Canonical related seen) {position : Nat} {termClass : TermClass}
    (found : map.classes[position]? = some termClass) :
    exists leader, (leaders related seen)[position]? = some leader ∧
      termClass.members.head? = some leader := by
  have heads := congrArg (fun heads => heads[position]?) canonical.earliest_eq
  simp only [List.getElem?_map, found, Option.map_some] at heads
  cases leading : (leaders related seen)[position]? with
  | none =>
      rw [leading] at heads
      cases heads
  | some leader =>
      rw [leading] at heads
      exact ⟨leader, rfl, Option.some.inj heads⟩

/-- The class at a position is that of the leader at this position. -/
theorem class_eq (canonical : map.Canonical related seen) (equivalence : Equivalence related)
    {position : Nat} {termClass : TermClass} (found : map.classes[position]? = some termClass) :
    exists leader, (leaders related seen)[position]? = some leader ∧
      termClass = ⟨position, relatives related seen leader⟩ := by
  rcases canonical.head?_eq found with ⟨leader, leading, _⟩
  refine ⟨leader, leading, ?_⟩
  have member : leader ∈ leaders related seen := List.mem_of_getElem? leading
  rcases canonical.class_of_mem leader (mem_of_mem_leaders member) with ⟨own, ownFound, own_eq⟩
  rcases Option.bind_eq_some_iff.mp ownFound with ⟨place, _, ownPlace⟩
  rcases canonical.head?_eq ownPlace with ⟨first, firstLeading, firstHead⟩
  -- Both positions belong to the same leader, and no leader occurs twice.
  rw [own_eq, head?_relatives equivalence member] at firstHead
  cases firstHead
  have inside := (List.getElem?_eq_some_iff.mp firstLeading).1
  have place_eq : place = position :=
    (List.getElem?_inj inside (nodup_leaders equivalence seen)).mp (firstLeading.trans leading.symm)
  subst place
  have same : own = termClass := Option.some.inj (ownPlace.symm.trans found)
  subst own
  have id_eq := canonical.id_eq found
  rcases termClass with ⟨id, members⟩
  cases id_eq
  cases own_eq
  rfl

theorem length_classes (canonical : map.Canonical related seen) :
    map.classes.length = (leaders related seen).length := by
  have length_eq := congrArg List.length canonical.earliest_eq
  simpa only [List.length_map] using length_eq

theorem classes_eq (canonical : map.Canonical related seen) (equivalence : Equivalence related) :
    map.classes = (leaders related seen).mapIdx (fun id leader => ⟨id, relatives related seen leader⟩) := by
  apply List.ext_getElem
  · rw [List.length_mapIdx, canonical.length_classes]
  · intro position inside _
    rcases canonical.class_eq equivalence (List.getElem?_eq_getElem inside) with ⟨leader, leading, same⟩
    rw [same, List.getElem_mapIdx, (List.getElem?_eq_some_iff.mp leading).2]

/-- A position is determined by the members of the class at it. -/
theorem position_eq (canonical : map.Canonical related seen) (equivalence : Equivalence related)
    {place position : Nat} {here there : TermClass} (atPlace : map.classes[place]? = some here)
    (atPosition : map.classes[position]? = some there) (same : here.members = there.members) :
    place = position := by
  rcases canonical.head?_eq atPlace with ⟨leader, leading, head_eq⟩
  rcases canonical.head?_eq atPosition with ⟨other, otherLeading, other_eq⟩
  rw [same, other_eq] at head_eq
  cases head_eq
  have inside := (List.getElem?_eq_some_iff.mp leading).1
  exact (List.getElem?_inj inside (nodup_leaders equivalence seen)).mp
    (leading.trans otherLeading.symm)

/-- The key of a term leads to the position of its class. -/
theorem exists_position (canonical : map.Canonical related seen) {term : Term} (member : term ∈ seen) :
    exists position, map.positions.find? term.key = some position ∧
      map.classes[position]? = some ⟨position, relatives related seen term⟩ := by
  rcases canonical.class_of_mem term member with ⟨⟨id, members⟩, found, members_eq⟩
  rcases Option.bind_eq_some_iff.mp found with ⟨position, positioned, atPosition⟩
  have id_eq := canonical.id_eq atPosition
  cases id_eq
  cases members_eq
  exact ⟨id, positioned, atPosition⟩

theorem mem_relatives {term other : Term} :
    other ∈ relatives related seen term ↔ other ∈ seen ∧ related term.key other.key := by
  rw [relatives, List.mem_filter, kin_iff]

/-- Every class is the class of each of its members. -/
theorem find?_of_mem_members (canonical : map.Canonical related seen) (equivalence : Equivalence related)
    {termClass : TermClass} (listed : termClass ∈ map.classes) {term : Term}
    (member : term ∈ termClass.members) : term ∈ seen ∧ map.find? term.key = some termClass := by
  rcases List.mem_iff_getElem?.mp listed with ⟨position, found⟩
  rcases canonical.class_eq equivalence found with ⟨leader, leading, class_eq⟩
  have inSeen := mem_of_mem_leaders (List.mem_of_getElem? leading)
  rw [class_eq] at member found
  have related_iff := mem_relatives.mp member
  refine ⟨related_iff.1, ?_⟩
  rw [← (canonical.class_eq_iff leader inSeen term related_iff.1).mpr related_iff.2, class_eq]
  rcases canonical.exists_position inSeen with ⟨place, positioned, atPlace⟩
  rw [find?, positioned, Option.bind_some, atPlace,
    canonical.position_eq equivalence atPlace found rfl]

theorem exists_mem_members (canonical : map.Canonical related seen) (equivalence : Equivalence related)
    {termClass : TermClass} (listed : termClass ∈ map.classes) :
    exists term, term ∈ termClass.members := by
  rcases List.mem_iff_getElem?.mp listed with ⟨position, found⟩
  rcases canonical.class_eq equivalence found with ⟨leader, leading, class_eq⟩
  have inSeen := mem_of_mem_leaders (List.mem_of_getElem? leading)
  rw [class_eq]
  exact ⟨leader, mem_relatives.mpr ⟨inSeen, equivalence.refl leader.key⟩⟩

/-- Every term has a class, whose members are the terms related to it. -/
theorem exists_class (canonical : map.Canonical related seen) {term : Term} (member : term ∈ seen) :
    exists termClass, termClass ∈ map.classes ∧ map.find? term.key = some termClass ∧
      forall other, other ∈ termClass.members ↔ other ∈ seen ∧ related term.key other.key := by
  rcases canonical.exists_position member with ⟨position, positioned, atPosition⟩
  refine ⟨_, List.mem_of_getElem? atPosition, ?_, fun other => mem_relatives⟩
  rw [find?, positioned, Option.bind_some, atPosition]

/-- The keys refer to the classes in the order of the classes. -/
theorem order_eq (canonical : map.Canonical related seen) (equivalence : Equivalence related)
    (nodup : (seen.map Term.key).Nodup) : map.order = List.range map.classes.length := by
  let place (term : Term) : Nat := (map.positions.find? term.key).getD 0
  have place_iff : forall left, left ∈ seen -> forall right, right ∈ seen ->
      (kin related left right = true ↔ place left = place right) := by
    intro left inLeft right inRight
    rcases canonical.exists_position inLeft with ⟨here, leftFound, atLeft⟩
    rcases canonical.exists_position inRight with ⟨there, rightFound, atRight⟩
    rw [kin_iff, ← canonical.class_eq_iff left inLeft right inRight]
    simp only [find?, place, leftFound, rightFound, Option.bind_some, Option.getD_some]
    constructor
    · intro same
      rw [atLeft, atRight, Option.some.injEq, TermClass.mk.injEq] at same
      exact same.1
    · intro same
      rw [same]
  have values_eq : map.positions.values = seen.map place := by
    rw [map.positions.values_eq (canonical.keys_eq ▸ nodup) 0, canonical.keys_eq, List.map_map]
    rfl
  rw [order, values_eq, Kinds.eraseDups_map (kin related) place seen place_iff]
  change (leaders related seen).map place = _
  apply List.ext_getElem
  · rw [List.length_map, List.length_range, canonical.length_classes]
  · intro number inside _
    rw [List.length_map] at inside
    rw [List.getElem_map, List.getElem_range]
    have isLeader : (leaders related seen)[number]? = some (leaders related seen)[number] :=
      List.getElem?_eq_getElem inside
    have member := mem_of_mem_leaders (List.getElem_mem inside)
    rcases canonical.exists_position member with ⟨position, found, atPosition⟩
    have numbered := List.getElem?_eq_getElem (canonical.length_classes ▸ inside)
    rcases canonical.class_eq equivalence numbered with ⟨leader, leading, class_eq⟩
    cases Option.some.inj (isLeader.symm.trans leading)
    rw [class_eq] at numbered
    simp only [place, found, Option.getD_some]
    exact canonical.position_eq equivalence atPosition numbered rfl

/-- All classes are referred to. -/
theorem distinct_eq (canonical : map.Canonical related seen) (equivalence : Equivalence related)
    (nodup : (seen.map Term.key).Nodup) : map.distinct = map.classes := by
  have listed : (List.range map.classes.length).map (fun position => map.classes[position]?) =
      map.classes.map some := by
    apply List.ext_getElem
    · simp
    · intro position _ _
      simp
  have filtered := congrArg (List.filterMap id) listed
  rw [List.filterMap_map, List.filterMap_map] at filtered
  rw [distinct, canonical.order_eq equivalence nodup]
  exact filtered.trans (List.filterMap_some)

/-- An equivalence has one class map only. -/
theorem unique (canonical : map.Canonical related seen) (equivalence : Equivalence related)
    (nodup : (seen.map Term.key).Nodup) {other : ClassMap} (otherCanonical : other.Canonical related seen) :
    other = map := by
  have classes_eq : other.classes = map.classes :=
    (otherCanonical.classes_eq equivalence).trans (canonical.classes_eq equivalence).symm
  have positions_eq : other.positions = map.positions := by
    apply Table.eq_of_find?
    · rwa [canonical.keys_eq]
    · rw [canonical.keys_eq, otherCanonical.keys_eq]
    · intro key member
      rw [canonical.keys_eq] at member
      rcases List.mem_map.mp member with ⟨term, termMember, rfl⟩
      rcases canonical.class_of_mem term termMember with ⟨here, found, here_eq⟩
      rcases otherCanonical.class_of_mem term termMember with ⟨there, otherFound, there_eq⟩
      rcases Option.bind_eq_some_iff.mp found with ⟨place, placed, atPlace⟩
      rcases Option.bind_eq_some_iff.mp otherFound with ⟨position, positioned, atPosition⟩
      rw [classes_eq] at atPosition
      rw [placed, positioned,
        canonical.position_eq equivalence atPlace atPosition (here_eq.trans there_eq.symm)]
  rcases map with ⟨classes, positions⟩
  rcases other with ⟨otherClasses, otherPositions⟩
  cases classes_eq
  cases positions_eq
  rfl

end Canonical

end ClassMap

/-! ## Unification -/

namespace Unifier

/-- After equations, the forest stands for their terms and their sides. -/
theorem unifyAll_standsFor (unifier : Unifier) {arrivals : List Term} {pairs : List (Term × Term)}
    (stands : unifier.sets.StandsFor arrivals pairs) (equations : List Equation) :
    (unifier.unifyAll equations).sets.StandsFor (arrivals ++ Equation.terms equations)
      (pairs ++ Equation.sides equations) := by
  induction equations generalizing unifier arrivals pairs with
  | nil =>
      simp only [Equation.terms, Equation.sides, List.flatMap_nil, List.map_nil, List.append_nil]
      exact stands
  | cons equation rest ih =>
      have step := ih (unifier.unify equation.left equation.right).2
        (stands.union equation.left equation.right)
      rw [List.append_assoc, List.append_assoc] at step
      exact step

end Unifier

namespace Equation

theorem equates_equivalence (equations : List Equation) : Equivalence (Equates equations) :=
  ⟨Forest.Connected.refl, Forest.Connected.symm, Forest.Connected.trans⟩

theorem standsFor (equations : List Equation) :
    (({} : Unifier).unifyAll equations).sets.StandsFor (terms equations) (sides equations) :=
  Unifier.unifyAll_standsFor {} Forest.StandsFor.empty equations

theorem nodup_seen (equations : List Equation) : ((seen equations).map Term.key).Nodup := by
  have stands := standsFor equations
  have nodup := stands.sound.keys_nodup
  rwa [stands.items_eq] at nodup

end Equation

namespace ClassMap

theorem canonical_ofEquations (equations : List Equation) :
    (ofEquations equations).Canonical (Equation.Equates equations) (Equation.seen equations) := by
  let forest := (({} : Unifier).unifyAll equations).sets
  have stands : forest.StandsFor (Equation.terms equations) (Equation.sides equations) :=
    Equation.standsFor equations
  have labels : Labels forest.rootOf (Equation.Equates equations) (Equation.seen equations) := by
    intro left inLeft right inRight
    have items_eq : forest.items = Equation.seen equations := stands.items_eq
    rw [← items_eq] at inLeft inRight
    rw [Forest.Sound.rootOf_eq_iff inLeft inRight]
    exact stands.representative_iff left.key right.key
  have map_eq : ofEquations equations = ofVisit (labelled forest.rootOf (Equation.seen equations)) := by
    change ofVisit forest.visit.1 = _
    rw [stands.sound.visit.1, stands.items_eq]
    rfl
  rw [map_eq]
  exact labels.canonical (Equation.nodup_seen equations) (Equation.equates_equivalence equations)

/-- Unification computes the equivalence closure of its equations and shows it in
the one canonical way, whichever roots were chosen and however links ran. -/
theorem ofEquations_canonical_unique (equations : List Equation) :
    (ofEquations equations).Canonical (Equation.Equates equations) (Equation.seen equations) ∧
      forall map : ClassMap,
        map.Canonical (Equation.Equates equations) (Equation.seen equations) ->
          map = ofEquations equations := by
  have canonical := canonical_ofEquations equations
  refine ⟨canonical, ?_⟩
  intro map other
  exact canonical.unique (Equation.equates_equivalence equations) (Equation.nodup_seen equations) other

end ClassMap

end Monotype
