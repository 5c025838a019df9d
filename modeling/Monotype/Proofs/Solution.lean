import Monotype.Naming
import Monotype.Proofs.ClassMap
import Monotype.Proofs.Term

namespace Monotype

/-!
# Solutions of equations

A solution gives a type to every key that occurs in the equations, and to no
other, so that a type denotes itself and the two sides of an equation agree.  The
naming of classes succeeds exactly if there is one solution.  Where a class holds
both types there is none, and where a class holds no type, any solution has a
second one that differs on this class.
-/

namespace Equation

/-- A key of a term in the equations. -/
def Occurs (equations : List Equation) (key : Text) : Prop :=
  exists equation, equation ∈ equations ∧ (equation.left.key = key ∨ equation.right.key = key)

/-- A map from exactly the occurring keys to types that respects the equations. -/
structure Solves (equations : List Equation) (type : Text -> Option Ground) : Prop where
  domain : forall key, (type key).isSome = true ↔ Occurs equations key
  ground : forall ground, Occurs equations (Term.ground ground).key ->
    type (Term.ground ground).key = some ground
  sides : forall equation, equation ∈ equations -> type equation.left.key = type equation.right.key

theorem occurs_iff (equations : List Equation) (key : Text) :
    Occurs equations key ↔ key ∈ (seen equations).map Term.key := by
  have listed : key ∈ (terms equations).map Term.key ↔ Occurs equations key := by
    rw [List.mem_map]
    constructor
    · rintro ⟨term, member, rfl⟩
      rcases List.mem_flatMap.mp member with ⟨equation, inEquations, side⟩
      rcases List.mem_cons.mp side with rfl | side
      · exact ⟨equation, inEquations, Or.inl rfl⟩
      · rw [List.mem_singleton] at side
        exact ⟨equation, inEquations, Or.inr (congrArg Term.key side.symm)⟩
    · rintro ⟨equation, inEquations, left | right⟩
      · exact ⟨equation.left, List.mem_flatMap.mpr ⟨equation, inEquations, by simp⟩, left⟩
      · exact ⟨equation.right, List.mem_flatMap.mpr ⟨equation, inEquations, by simp⟩, right⟩
  rw [← listed, seen, Forest.mem_map_firstOfEach]

/-- A type that occurs is among the seen terms itself. -/
theorem ground_mem_seen {equations : List Equation} {type : Ground}
    (occurs : Occurs equations (Term.ground type).key) : Term.ground type ∈ seen equations := by
  rw [occurs_iff] at occurs
  rcases List.mem_map.mp occurs with ⟨term, member, same⟩
  rwa [Term.eq_ground_of_key same] at member

/-- Types for all keys, restricted to those that occur. -/
def restrict (equations : List Equation) (type : Text -> Ground) (key : Text) : Option Ground :=
  if ((seen equations).map Term.key).contains key then some (type key) else none

theorem restrict_of_occurs {equations : List Equation} (type : Text -> Ground) {key : Text}
    (occurs : Occurs equations key) : restrict equations type key = some (type key) := by
  rw [occurs_iff, ← List.contains_iff_mem] at occurs
  exact if_pos occurs

theorem restrict_of_not_occurs {equations : List Equation} (type : Text -> Ground) {key : Text}
    (absent : ¬ Occurs equations key) : restrict equations type key = none := by
  rw [occurs_iff, ← List.contains_iff_mem] at absent
  exact if_neg absent

theorem solves_restrict {equations : List Equation} {type : Text -> Ground}
    (ground : forall ground, Occurs equations (Term.ground ground).key ->
      type (Term.ground ground).key = ground)
    (sides : forall equation, equation ∈ equations ->
      type equation.left.key = type equation.right.key) :
    Solves equations (restrict equations type) where
  domain := by
    intro key
    by_cases occurs : Occurs equations key
    · rw [restrict_of_occurs type occurs]
      exact ⟨fun _ => occurs, fun _ => rfl⟩
    · rw [restrict_of_not_occurs type occurs]
      exact ⟨fun isSome => (nomatch isSome), fun present => absurd present occurs⟩
  ground := by
    intro other occurs
    rw [restrict_of_occurs type occurs, ground other occurs]
  sides := by
    intro equation member
    rw [restrict_of_occurs type ⟨equation, member, Or.inl rfl⟩,
      restrict_of_occurs type ⟨equation, member, Or.inr rfl⟩, sides equation member]

theorem equates_of_mem {equations : List Equation} {equation : Equation} (member : equation ∈ equations) :
    Equates equations equation.left.key equation.right.key :=
  Forest.Connected.of_mem (List.mem_map.mpr ⟨equation, member, rfl⟩)

/-- A solution gives one type to related keys. -/
theorem Solves.congr {equations : List Equation} {type : Text -> Option Ground}
    (solves : Solves equations type) {left right : Text} (related : Equates equations left right) :
    type left = type right := by
  apply Forest.Connected.congr type _ related
  intro pair member
  rcases List.mem_map.mp member with ⟨equation, inEquations, rfl⟩
  exact solves.sides equation inEquations

end Equation

/-! ## The type of a class -/

namespace TermClass

theorem mem_grounds (termClass : TermClass) (type : Ground) :
    type ∈ termClass.grounds ↔ Term.ground type ∈ termClass.members := by
  rw [grounds, List.mem_eraseDups, List.mem_filterMap]
  constructor
  · rintro ⟨term, member, is⟩
    cases term with
    | ground other => rwa [← Option.some.inj is]
    | unknown number label => cases is
    | binder name index => cases is
  · intro member
    exact ⟨Term.ground type, member, rfl⟩

/-- The member that is mentioned is the first that is no type, or else the first member. -/
theorem some_exemplar {termClass : TermClass} {term : Term} (member : term ∈ termClass.members) :
    some termClass.exemplar =
      (termClass.members.find? (fun member => !member.isGround)).or termClass.members.head? := by
  cases shape : termClass.members with
  | nil =>
      rw [shape] at member
      cases member
  | cons first rest =>
      rw [exemplar, shape, List.head?_cons]
      cases List.find? (fun member => !member.isGround) (first :: rest) <;> rfl

/-- The three answers to the type of a class, each with what the members hold. -/
theorem type?_cases (termClass : TermClass) :
    (exists type, termClass.type? = .ok type ∧
      forall other, Term.ground other ∈ termClass.members ↔ other = type) ∨
    (termClass.type? = .error (.unresolved termClass.exemplar termClass.members) ∧
      forall type, Term.ground type ∉ termClass.members) ∨
    (exists types, termClass.type? = .error (.conflicting types termClass.exemplar termClass.members) ∧
      forall type, Term.ground type ∈ termClass.members) := by
  have held := fun type => (termClass.mem_grounds type).symm
  have nodup : termClass.grounds.Nodup := Kinds.nodup_eraseDups _
  cases shape : termClass.grounds with
  | nil =>
      rw [shape] at held
      refine Or.inr (Or.inl ⟨by rw [type?, shape], ?_⟩)
      intro type member
      cases (held type).mp member
  | cons first rest =>
      cases rest with
      | nil =>
          rw [shape] at held
          refine Or.inl ⟨first, by rw [type?, shape], ?_⟩
          intro other
          rw [held, List.mem_singleton]
      | cons second rest =>
          rw [shape] at held nodup
          refine Or.inr (Or.inr ⟨first :: second :: rest, by rw [type?, shape], ?_⟩)
          intro type
          rw [held]
          -- There are only two types, so the first two entries are both of them.
          have different : first ≠ second := by
            intro same
            exact (List.nodup_cons.mp nodup).1 (same ▸ List.mem_cons_self)
          cases first <;> cases second <;> cases type <;> simp at different ⊢

end TermClass

namespace Naming

/-! ## Naming classes in turn -/

theorem assign_find? (naming : Naming) (type : Ground) (members : List Term) (key : Text) :
    (naming.assign type members).find? key =
      if key ∈ members.map Term.key then some type else naming.find? key := by
  induction members generalizing naming with
  | nil => simp [assign]
  | cons member rest ih =>
      change (assign (naming.insert member.key type) type rest).find? key = _
      rw [ih, Table.find?_insert, List.map_cons]
      by_cases later : key ∈ rest.map Term.key
      · simp [later]
      · by_cases here : member.key = key
        · simp [here]
        · have different : key ≠ member.key := fun equal => here equal.symm
          simp [later, here, different]

theorem assign_nodup (naming : Naming) (type : Ground) (members : List Term)
    (nodup : naming.keys.Nodup) : (naming.assign type members).keys.Nodup := by
  induction members generalizing naming with
  | nil => exact nodup
  | cons member rest ih => exact ih _ (naming.nodup_keys_insert member.key type nodup)

/-- Naming fails at the first class without a type, and succeeds if there is none. -/
theorem extend_cases (naming : Naming) (classes : List TermClass) :
    (exists result, naming.extend classes = .ok result ∧
      forall termClass, termClass ∈ classes -> exists type, termClass.type? = .ok type) ∨
    (exists before termClass after fault, naming.extend classes = .error fault ∧
      classes = before ++ termClass :: after ∧ termClass.type? = .error fault ∧
      forall earlier, earlier ∈ before -> exists type, earlier.type? = .ok type) := by
  induction classes generalizing naming with
  | nil =>
      refine Or.inl ⟨naming, rfl, ?_⟩
      intro termClass member
      cases member
  | cons termClass rest ih =>
      cases typed : termClass.type? with
      | error fault =>
          refine Or.inr ⟨[], termClass, rest, fault, by rw [extend, typed], rfl, typed, ?_⟩
          intro earlier member
          cases member
      | ok type =>
          have step : naming.extend (termClass :: rest) =
              (naming.assign type termClass.members).extend rest := by
            rw [extend, typed]
          rw [step]
          rcases ih (naming.assign type termClass.members) with
            ⟨result, succeeded, all⟩ | ⟨before, bad, after, fault, failed, rest_eq, untyped, all⟩
          · refine Or.inl ⟨result, succeeded, ?_⟩
            intro other member
            rcases List.mem_cons.mp member with rfl | later
            · exact ⟨type, typed⟩
            · exact all other later
          · refine Or.inr ⟨termClass :: before, bad, after, fault, failed, by rw [rest_eq]; rfl, untyped, ?_⟩
            intro other member
            rcases List.mem_cons.mp member with rfl | later
            · exact ⟨type, typed⟩
            · exact all other later

/-- If members are expected to have the types of their classes, then a naming gives
the expected types to the members and leaves other keys alone. -/
theorem extend_find? (expected : Text -> Ground) (naming result : Naming) (classes : List TermClass)
    (expects : forall termClass, termClass ∈ classes -> forall type, termClass.type? = .ok type ->
      forall term, term ∈ termClass.members -> expected term.key = type)
    (succeeded : naming.extend classes = .ok result) (key : Text) :
    result.find? key =
      if key ∈ (classes.flatMap TermClass.members).map Term.key then some (expected key)
      else naming.find? key := by
  induction classes generalizing naming with
  | nil =>
      rw [extend] at succeeded
      cases succeeded
      simp
  | cons termClass rest ih =>
      rw [extend] at succeeded
      cases typed : termClass.type? with
      | error fault =>
          rw [typed] at succeeded
          cases succeeded
      | ok type =>
          rw [typed] at succeeded
          have later := ih (naming.assign type termClass.members)
            (fun other member => expects other (List.mem_cons_of_mem _ member)) succeeded
          rw [later, assign_find?]
          simp only [List.flatMap_cons, List.map_append, List.mem_append]
          by_cases inRest : key ∈ (rest.flatMap TermClass.members).map Term.key
          · simp [inRest]
          · by_cases here : key ∈ termClass.members.map Term.key
            · rcases List.mem_map.mp here with ⟨term, member, rfl⟩
              have type_eq := expects termClass List.mem_cons_self type typed term member
              simp [inRest, here, type_eq]
            · simp [inRest, here]

theorem extend_nodup (naming result : Naming) (classes : List TermClass) (nodup : naming.keys.Nodup)
    (succeeded : naming.extend classes = .ok result) : result.keys.Nodup := by
  induction classes generalizing naming with
  | nil =>
      rw [extend] at succeeded
      cases succeeded
      exact nodup
  | cons termClass rest ih =>
      rw [extend] at succeeded
      cases typed : termClass.type? with
      | error fault =>
          rw [typed] at succeeded
          cases succeeded
      | ok type =>
          rw [typed] at succeeded
          exact ih _ (naming.assign_nodup type termClass.members nodup) succeeded

end Naming

/-! ## The solution that a naming is -/

namespace ClassMap

/-- The type of the class of a key; any type if there is none. -/
def typeOf (map : ClassMap) (key : Text) : Ground :=
  match (map.find? key).map TermClass.type? with
  | some (.ok type) => type
  | _ => .int

theorem typeOf_eq {map : ClassMap} {key : Text} {termClass : TermClass} {type : Ground}
    (found : map.find? key = some termClass) (typed : termClass.type? = .ok type) :
    map.typeOf key = type := by
  rw [typeOf, found, Option.map_some, typed]

end ClassMap

namespace Solution

open Equation

variable {equations : List Equation}

theorem naming_eq (equations : List Equation) :
    (ofEquations equations).naming =
      Naming.extend .empty (ClassMap.ofEquations equations).classes := by
  have canonical := ClassMap.canonical_ofEquations equations
  change Naming.extend .empty (ClassMap.ofEquations equations).distinct = _
  rw [canonical.distinct_eq (equates_equivalence equations) (nodup_seen equations)]

/-- A naming gives every occurring key the type of its class. -/
theorem find?_naming {naming : Naming} (succeeded : (ofEquations equations).naming = .ok naming) :
    naming.find? = restrict equations (ClassMap.ofEquations equations).typeOf := by
  have canonical := ClassMap.canonical_ofEquations equations
  have equivalence := equates_equivalence equations
  rw [naming_eq] at succeeded
  have found := Naming.extend_find? (ClassMap.ofEquations equations).typeOf .empty naming
    (ClassMap.ofEquations equations).classes
    (fun termClass listed type typed term member => ClassMap.typeOf_eq
      (canonical.find?_of_mem_members equivalence listed member).2 typed)
    succeeded
  funext key
  have members_iff : key ∈ ((ClassMap.ofEquations equations).classes.flatMap TermClass.members).map
      Term.key ↔ Occurs equations key := by
    rw [occurs_iff, List.mem_map, List.mem_map]
    constructor
    · rintro ⟨term, member, rfl⟩
      rcases List.mem_flatMap.mp member with ⟨termClass, listed, inClass⟩
      exact ⟨term, (canonical.find?_of_mem_members equivalence listed inClass).1, rfl⟩
    · rintro ⟨term, member, rfl⟩
      rcases canonical.exists_class member with ⟨termClass, listed, _, members⟩
      refine ⟨term, List.mem_flatMap.mpr ⟨termClass, listed, ?_⟩, rfl⟩
      exact (members term).mpr ⟨member, equivalence.refl term.key⟩
  rw [found]
  by_cases occurs : Occurs equations key
  · rw [if_pos (members_iff.mpr occurs), restrict_of_occurs _ occurs]
  · rw [if_neg (mt members_iff.mp occurs), restrict_of_not_occurs _ occurs]
    rfl

theorem class_typed {naming : Naming} (succeeded : (ofEquations equations).naming = .ok naming)
    {termClass : TermClass} (listed : termClass ∈ (ClassMap.ofEquations equations).classes) :
    exists type, termClass.type? = .ok type ∧
      forall other, Term.ground other ∈ termClass.members ↔ other = type := by
  rw [naming_eq] at succeeded
  rcases Naming.extend_cases .empty (ClassMap.ofEquations equations).classes with
    ⟨_, _, all⟩ | ⟨_, _, _, _, failed, _⟩
  · rcases all termClass listed with ⟨type, typed⟩
    rcases termClass.type?_cases with cases | ⟨untyped, _⟩ | ⟨_, untyped, _⟩
    · exact cases
    · rw [typed] at untyped
      cases untyped
    · rw [typed] at untyped
      cases untyped
  · rw [failed] at succeeded
    cases succeeded

/-- After a success every term is related to exactly one type, the one that it is given. -/
theorem exists_ground {naming : Naming} (succeeded : (ofEquations equations).naming = .ok naming)
    {term : Term} (member : term ∈ seen equations) :
    exists type, (ClassMap.ofEquations equations).typeOf term.key = type ∧
      forall other, (Term.ground other ∈ seen equations ∧
        Equates equations term.key (Term.ground other).key) ↔ other = type := by
  have canonical := ClassMap.canonical_ofEquations equations
  rcases canonical.exists_class member with ⟨termClass, listed, found, members⟩
  rcases class_typed succeeded listed with ⟨type, typed, grounds⟩
  refine ⟨type, ClassMap.typeOf_eq found typed, ?_⟩
  intro other
  rw [← grounds other, members]

theorem find?_sides {equation : Equation} (member : equation ∈ equations) :
    (ClassMap.ofEquations equations).find? equation.left.key =
      (ClassMap.ofEquations equations).find? equation.right.key := by
  have canonical := ClassMap.canonical_ofEquations equations
  have left := (occurs_iff equations _).mp ⟨equation, member, Or.inl rfl⟩
  have right := (occurs_iff equations _).mp ⟨equation, member, Or.inr rfl⟩
  rcases List.mem_map.mp left with ⟨leftTerm, leftSeen, leftKey⟩
  rcases List.mem_map.mp right with ⟨rightTerm, rightSeen, rightKey⟩
  rw [← leftKey, ← rightKey]
  apply (canonical.class_eq_iff leftTerm leftSeen rightTerm rightSeen).mpr
  rw [leftKey, rightKey]
  exact equates_of_mem member

/-- A naming solves the equations. -/
theorem solves_naming {naming : Naming} (succeeded : (ofEquations equations).naming = .ok naming) :
    Solves equations naming.find? := by
  rw [find?_naming succeeded]
  apply solves_restrict
  · intro type occurs
    have member := ground_mem_seen occurs
    rcases exists_ground succeeded member with ⟨given, found, grounds⟩
    rw [found, (grounds type).mp ⟨member, (equates_equivalence equations).refl _⟩]
  · intro equation member
    unfold ClassMap.typeOf
    rw [find?_sides member]

/-- A naming is the only solution, since every term is related to its type. -/
theorem eq_find?_naming {naming : Naming} (succeeded : (ofEquations equations).naming = .ok naming)
    {type : Text -> Option Ground} (solves : Solves equations type) : type = naming.find? := by
  rw [find?_naming succeeded]
  funext key
  by_cases occurs : Occurs equations key
  · rcases List.mem_map.mp ((occurs_iff equations key).mp occurs) with ⟨term, member, rfl⟩
    rcases exists_ground succeeded member with ⟨given, found, grounds⟩
    have related := (grounds given).mpr rfl
    have groundOccurs := (occurs_iff equations _).mpr (List.mem_map_of_mem related.1)
    rw [restrict_of_occurs _ occurs, found, solves.congr related.2, solves.ground given groundOccurs]
  · have untyped := mt (solves.domain key).mp occurs
    rw [restrict_of_not_occurs _ occurs, Option.not_isSome_iff_eq_none.mp untyped]

/-! ## Classes without a type -/

theorem not_solves_of_conflict {termClass : TermClass}
    (listed : termClass ∈ (ClassMap.ofEquations equations).classes)
    (both : forall type, Term.ground type ∈ termClass.members) {type : Text -> Option Ground} :
    ¬ Solves equations type := by
  intro solves
  have canonical := ClassMap.canonical_ofEquations equations
  have inClass := fun ground =>
    canonical.find?_of_mem_members (equates_equivalence equations) listed (both ground)
  have given := fun ground => solves.ground ground
    ((occurs_iff equations _).mpr (List.mem_map_of_mem (inClass ground).1))
  have related := (canonical.class_eq_iff _ (inClass .int).1 _ (inClass .bool).1).mp
    ((inClass .int).2.trans (inClass .bool).2.symm)
  have same := solves.congr related
  rw [given, given] at same
  cases same

/-- The types with those of one class exchanged. -/
def exchanged (map : ClassMap) (termClass : TermClass) (type : Text -> Option Ground) (key : Text) :
    Option Ground :=
  if map.find? key = some termClass then
    (type key).map (fun ground => if ground = .int then .bool else .int)
  else type key

/-- Where a class holds no type, nothing ties its types down. -/
theorem solves_exchanged {termClass : TermClass}
    (neither : forall type, Term.ground type ∉ termClass.members) {type : Text -> Option Ground}
    (solves : Solves equations type) :
    Solves equations (exchanged (ClassMap.ofEquations equations) termClass type) where
  domain := by
    intro key
    rw [← solves.domain key, exchanged]
    split <;> simp
  ground := by
    intro ground occurs
    have canonical := ClassMap.canonical_ofEquations equations
    have member := ground_mem_seen occurs
    rcases canonical.exists_class member with ⟨own, _, found, members⟩
    have inOwn := (members _).mpr ⟨member, (equates_equivalence equations).refl _⟩
    have different : (ClassMap.ofEquations equations).find? (Term.ground ground).key ≠ some termClass := by
      intro same
      rw [found] at same
      exact neither ground (Option.some.inj same ▸ inOwn)
    rw [exchanged, if_neg different]
    exact solves.ground ground occurs
  sides := by
    intro equation member
    rw [exchanged, exchanged, find?_sides member, solves.sides equation member]

theorem exchanged_ne {termClass : TermClass}
    (listed : termClass ∈ (ClassMap.ofEquations equations).classes) {type : Text -> Option Ground}
    (solves : Solves equations type) :
    exchanged (ClassMap.ofEquations equations) termClass type ≠ type := by
  intro same
  have canonical := ClassMap.canonical_ofEquations equations
  have equivalence := equates_equivalence equations
  rcases canonical.exists_mem_members equivalence listed with ⟨term, member⟩
  rcases canonical.find?_of_mem_members equivalence listed member with ⟨inSeen, found⟩
  have typed := (solves.domain term.key).mpr ((occurs_iff equations _).mpr (List.mem_map_of_mem inSeen))
  rcases Option.isSome_iff_exists.mp typed with ⟨ground, given⟩
  have unchanged := congrFun same term.key
  rw [exchanged, if_pos found, given] at unchanged
  cases ground <;> simp at unchanged

/-! ## Unique solvability -/

theorem existsUnique_of_naming {naming : Naming}
    (succeeded : (ofEquations equations).naming = .ok naming) :
    ∃! type, Solves equations type :=
  ⟨naming.find?, solves_naming succeeded, fun _ solves => eq_find?_naming succeeded solves⟩

/-- A failed naming is about a class that holds both types or neither. -/
theorem class_untyped {fault : NamingFault} (failed : (ofEquations equations).naming = .error fault) :
    exists termClass, termClass ∈ (ClassMap.ofEquations equations).classes ∧
      ((fault = .unresolved termClass.exemplar termClass.members ∧
          forall type, Term.ground type ∉ termClass.members) ∨
        (exists types, fault = .conflicting types termClass.exemplar termClass.members ∧
          forall type, Term.ground type ∈ termClass.members)) := by
  rw [naming_eq] at failed
  rcases Naming.extend_cases .empty (ClassMap.ofEquations equations).classes with
    ⟨_, succeeded, _⟩ | ⟨before, termClass, after, first, failedFirst, classes_eq, untyped, _⟩
  · rw [succeeded] at failed
    cases failed
  · rw [failedFirst] at failed
    cases failed
    refine ⟨termClass, by rw [classes_eq]; simp, ?_⟩
    rcases termClass.type?_cases with ⟨_, typed, _⟩ | ⟨unresolved, neither⟩ | ⟨types, conflicting, both⟩
    · rw [typed] at untyped
      cases untyped
    · rw [unresolved] at untyped
      cases untyped
      exact Or.inl ⟨rfl, neither⟩
    · rw [conflicting] at untyped
      cases untyped
      exact Or.inr ⟨types, rfl, both⟩

theorem not_existsUnique_of_fault {fault : NamingFault}
    (failed : (ofEquations equations).naming = .error fault) :
    ¬ ∃! type, Solves equations type := by
  rintro ⟨type, solves, unique⟩
  rcases class_untyped failed with ⟨termClass, listed, ⟨_, neither⟩ | ⟨_, _, both⟩⟩
  · exact exchanged_ne listed solves (unique _ (solves_exchanged neither solves))
  · exact not_solves_of_conflict listed both solves

/-- Naming succeeds exactly if the equations have one solution, which it then is, and a
conflict means that they have none. -/
theorem naming_ok_iff_existsUnique (equations : List Equation) :
    ((exists naming, (ofEquations equations).naming = .ok naming) ↔
        ∃! type, Solves equations type) ∧
      (forall naming, (ofEquations equations).naming = .ok naming ->
        naming.keys.Nodup ∧ Solves equations naming.find?) ∧
      (forall fault, (ofEquations equations).naming = .error fault -> fault.kind = "conflicting" ->
        ¬ exists type, Solves equations type) := by
  refine ⟨⟨?_, ?_⟩, ?_, ?_⟩
  · rintro ⟨naming, succeeded⟩
    exact existsUnique_of_naming succeeded
  · intro unique
    cases outcome : (ofEquations equations).naming with
    | ok naming => exact ⟨naming, rfl⟩
    | error fault => exact absurd unique (not_existsUnique_of_fault outcome)
  · intro naming succeeded
    refine ⟨?_, solves_naming succeeded⟩
    rw [naming_eq] at succeeded
    exact Naming.extend_nodup .empty naming _ List.nodup_nil succeeded
  · rintro fault failed conflicting ⟨type, solves⟩
    rcases class_untyped failed with ⟨termClass, listed, ⟨unresolved, _⟩ | ⟨_, _, both⟩⟩
    · rw [unresolved, NamingFault.kind] at conflicting
      exact absurd conflicting (by decide)
    · exact not_solves_of_conflict listed both solves

end Solution

end Monotype
