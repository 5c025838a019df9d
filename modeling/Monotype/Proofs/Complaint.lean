import Monotype.Proofs.Solution

namespace Monotype

/-!
# The first term without a type

Naming goes through the classes in order and gives up at the first one that does not hold exactly one
type.  Classes are in the order of their earliest members, and later equations may have joined classes
that were apart when their terms were seen.  Still the class that is complained about is that of the
first term, in order of appearance, whose class in the end does not hold exactly one type: every term
in front of it belongs to a class that has a leader in front of it, and so to an earlier class.
-/

namespace Equation

/-- The terms that equations make equivalent to a given one, in order of first appearance. -/
noncomputable def classOf (equations : List Equation) (term : Term) : List Term :=
  ClassMap.relatives (Equates equations) (seen equations) term

/-- The class of a term holds exactly one of the two types. -/
def Typed (equations : List Equation) (term : Term) : Prop :=
  ∃! type, Term.ground type ∈ classOf equations term

theorem nodup_terms (equations : List Equation) : (seen equations).Nodup :=
  List.Nodup.of_map Term.key (nodup_seen equations)

/-- Equivalent terms have one class. -/
theorem classOf_congr {equations : List Equation} {left right : Term}
    (related : Equates equations left.key right.key) :
    classOf equations left = classOf equations right := by
  have equivalence := equates_equivalence equations
  apply List.filter_congr
  intro other _
  apply Bool.eq_iff_iff.mpr
  rw [ClassMap.kin_iff, ClassMap.kin_iff]
  constructor
  · exact equivalence.trans (equivalence.symm related)
  · exact equivalence.trans related

end Equation

/-! ## Leaders in order -/

namespace ClassMap

variable {related : Text -> Text -> Prop}

/-- A leader stands behind exactly the leaders of the terms in front of it. -/
theorem getElem?_leaders (equivalence : Equivalence related) {before after : List Term} {leader : Term}
    (nodup : (before ++ leader :: after).Nodup)
    (member : leader ∈ leaders related (before ++ leader :: after)) :
    (leaders related (before ++ leader :: after))[(leaders related before).length]? = some leader := by
  have unrelated : forall earlier, earlier ∈ before -> ¬ kin related leader earlier = true := by
    intro earlier inBefore alike
    have first := head?_relatives equivalence member
    rw [relatives, List.filter_append, List.head?_append] at first
    cases front : before.filter (kin related leader) with
    | nil => exact (List.filter_eq_nil_iff.mp front) earlier inBefore alike
    | cons head rest =>
        rw [front, List.head?_cons, Option.some_or] at first
        have inFront : head ∈ before.filter (kin related leader) := front ▸ List.mem_cons_self
        rw [Option.some.inj first] at inFront
        have apart := (List.nodup_append.mp nodup).2.2
        exact apart leader (List.mem_of_mem_filter inFront) leader List.mem_cons_self rfl
  have unknown : (leaders related before).any (kin related leader) = false := by
    rw [List.any_eq_false]
    exact fun earlier kept => unrelated earlier (mem_of_mem_leaders kept)
  have upTo : leaders related (before ++ [leader]) = leaders related before ++ [leader] := by
    change (before ++ [leader]).eraseDupsBy (kin related) = _
    rw [Kinds.eraseDupsBy_concat]
    change (if (leaders related before).any (kin related leader) = true then leaders related before
      else leaders related before ++ [leader]) = _
    rw [unknown]
    rfl
  have further := Kinds.prefix_eraseDupsBy (kin related) (before ++ [leader]) after
  rw [List.append_assoc, List.singleton_append] at further
  change leaders related (before ++ [leader]) <+: leaders related (before ++ leader :: after) at further
  rw [upTo] at further
  rcases further with ⟨rest, leaders_eq⟩
  rw [← leaders_eq, List.append_assoc, List.getElem?_append_right (Nat.le_refl _), Nat.sub_self]
  rfl

/-- A class is that of its leader, and every term in front of the leader belongs to a class in front of
this one. -/
theorem Canonical.exists_first {map : ClassMap} {seen : List Term} (canonical : map.Canonical related seen)
    (equivalence : Equivalence related) (nodup : seen.Nodup) {front back : List TermClass}
    {termClass : TermClass} (classes_eq : map.classes = front ++ termClass :: back) :
    exists before leader after, seen = before ++ leader :: after ∧
      termClass.members = relatives related seen leader ∧
      forall earlier, earlier ∈ before -> exists own, own ∈ front ∧
        exists first, related earlier.key first.key ∧ own.members = relatives related seen first := by
  have found : map.classes[front.length]? = some termClass := by
    rw [classes_eq, List.getElem?_append_right (Nat.le_refl _), Nat.sub_self]
    rfl
  rcases canonical.class_eq equivalence found with ⟨leader, leading, class_eq⟩
  have member := List.mem_of_getElem? leading
  rcases List.append_of_mem (mem_of_mem_leaders member) with ⟨before, after, seen_eq⟩
  refine ⟨before, leader, after, seen_eq, congrArg TermClass.members class_eq, ?_⟩
  -- The leaders of the terms in front of this leader lead the classes in front of its class.
  have count_eq : (leaders related before).length = front.length := by
    have placed := getElem?_leaders equivalence (seen_eq ▸ nodup) (seen_eq ▸ member)
    rw [← seen_eq] at placed
    have inside := (List.getElem?_eq_some_iff.mp placed).1
    exact (List.getElem?_inj inside (nodup_leaders equivalence seen)).mp (placed.trans leading.symm)
  intro earlier inBefore
  rcases Kinds.exists_mem_eraseDupsBy (kin related)
    (fun term => (kin_iff related term term).mpr (equivalence.refl term.key)) before earlier inBefore with
    ⟨first, kept, alike⟩
  rcases List.getElem?_of_mem kept with ⟨place, placed⟩
  have inside : place < front.length := count_eq ▸ (List.getElem?_eq_some_iff.mp placed).1
  have sooner : map.classes[place]? = some front[place] := by
    rw [classes_eq, List.getElem?_append_left inside, List.getElem?_eq_getElem inside]
  rcases canonical.class_eq equivalence sooner with ⟨other, otherLeading, own_eq⟩
  have same : (leaders related seen)[place]? = some first := by
    rcases Kinds.prefix_eraseDupsBy (kin related) before (leader :: after) with ⟨rest, leaders_eq⟩
    change leaders related before ++ rest = leaders related (before ++ leader :: after) at leaders_eq
    rw [seen_eq, ← leaders_eq, List.getElem?_append_left (count_eq ▸ inside)]
    exact placed
  cases Option.some.inj (same.symm.trans otherLeading)
  exact ⟨front[place], List.getElem_mem inside, first, (kin_iff related earlier first).mp alike,
    congrArg TermClass.members own_eq⟩

end ClassMap

/-! ## The complaint -/

namespace TermClass

theorem typed_iff (termClass : TermClass) :
    (exists type, termClass.type? = .ok type) ↔ ∃! type, Term.ground type ∈ termClass.members := by
  rcases termClass.type?_cases with ⟨type, typed, holds⟩ | ⟨untyped, neither⟩ | ⟨types, untyped, both⟩
  · refine iff_of_true ⟨type, typed⟩ ⟨type, (holds type).mpr rfl, ?_⟩
    intro other member
    exact (holds other).mp member
  · rw [untyped]
    constructor
    · rintro ⟨_, impossible⟩
      cases impossible
    · rintro ⟨type, member, _⟩
      exact absurd member (neither type)
  · rw [untyped]
    constructor
    · rintro ⟨_, impossible⟩
      cases impossible
    · rintro ⟨type, _, unique⟩
      cases (unique .int (both .int)).trans (unique .bool (both .bool)).symm

/-- What is said about a class without a type. -/
theorem fault_eq {termClass : TermClass} {fault : NamingFault} {term : Term}
    (member : term ∈ termClass.members) (untyped : termClass.type? = .error fault) :
    fault.members = termClass.members ∧
      (fault.kind = "unresolved" ↔ forall type, Term.ground type ∉ termClass.members) ∧
      (fault.kind = "conflicting" ↔ forall type, Term.ground type ∈ termClass.members) ∧
      some fault.term =
        (termClass.members.find? (fun member => !member.isGround)).or termClass.members.head? := by
  have term_eq := some_exemplar member
  have different : Text.ofString "unresolved" ≠ Text.ofString "conflicting" := by decide
  rcases termClass.type?_cases with ⟨_, typed, _⟩ | ⟨unresolved, neither⟩ | ⟨types, conflicting, both⟩
  · cases typed.symm.trans untyped
  · cases unresolved.symm.trans untyped
    exact ⟨rfl, iff_of_true rfl neither,
      iff_of_false different (fun both => neither .int (both .int)), term_eq⟩
  · cases conflicting.symm.trans untyped
    exact ⟨rfl, iff_of_false different.symm (fun neither => neither .int (both .int)),
      iff_of_true rfl both, term_eq⟩

end TermClass

/-- The fault is about the class of the term behind `before`, and this is the first term whose class
does not hold exactly one type. -/
structure NamingFault.Blames (fault : NamingFault) (equations : List Equation) (before : List Term)
    (term : Term) (after : List Term) : Prop where
  seen_eq : Equation.seen equations = before ++ term :: after
  typed_before : forall earlier, earlier ∈ before -> Equation.Typed equations earlier
  untyped : ¬ Equation.Typed equations term
  members_eq : fault.members = Equation.classOf equations term
  unresolved_iff : fault.kind = "unresolved" ↔
    forall type, Term.ground type ∉ Equation.classOf equations term
  conflicting_iff : fault.kind = "conflicting" ↔
    forall type, Term.ground type ∈ Equation.classOf equations term
  term_eq : some fault.term =
    ((Equation.classOf equations term).find? (fun member => !member.isGround)).or
      (Equation.classOf equations term).head?

/-- A failed naming complains about the first term whose class does not hold exactly one type.  It
lists the whole class of the term and mentions its first member that is no type, or else its first
member; the classes it comes with are those of the equations. -/
theorem Solution.fault_blames_first (equations : List Equation) {fault : NamingFault}
    (failed : (Solution.ofEquations equations).naming = .error fault) :
    (exists before term after, fault.Blames equations before term after) ∧
      (Solution.ofEquations equations).classes = ClassMap.ofEquations equations := by
  refine ⟨?_, rfl⟩
  have canonical := ClassMap.canonical_ofEquations equations
  have equivalence := Equation.equates_equivalence equations
  rw [Solution.naming_eq] at failed
  rcases Naming.extend_cases .empty (ClassMap.ofEquations equations).classes with
    ⟨_, succeeded, _⟩ | ⟨front, termClass, back, first, failedFirst, classes_eq, untyped, typed⟩
  · rw [succeeded] at failed
    cases failed
  · cases failedFirst.symm.trans failed
    rcases canonical.exists_first equivalence (Equation.nodup_terms equations) classes_eq with
      ⟨before, term, after, seen_eq, members_eq, sooner⟩
    change termClass.members = Equation.classOf equations term at members_eq
    have member : term ∈ termClass.members := by
      rw [members_eq]
      exact ClassMap.Canonical.mem_relatives.mpr
        ⟨seen_eq ▸ List.mem_append_right _ List.mem_cons_self, equivalence.refl term.key⟩
    have typed_before : forall earlier, earlier ∈ before -> Equation.Typed equations earlier := by
      intro earlier inBefore
      rcases sooner earlier inBefore with ⟨own, inFront, leader, related, own_eq⟩
      have holds := own.typed_iff.mp (typed own inFront)
      rw [own_eq] at holds
      rw [Equation.Typed, Equation.classOf_congr related]
      exact holds
    have untypedTerm : ¬ Equation.Typed equations term := by
      rw [Equation.Typed, ← members_eq, ← termClass.typed_iff, untyped]
      rintro ⟨_, impossible⟩
      cases impossible
    rcases TermClass.fault_eq member untyped with ⟨listed, unresolved_iff, conflicting_iff, term_eq⟩
    rw [members_eq] at listed unresolved_iff conflicting_iff term_eq
    exact ⟨before, term, after, seen_eq, typed_before, untypedTerm, listed, unresolved_iff,
      conflicting_iff, term_eq⟩

/-- Two unknowns whose class holds no type stand between a name and the equation that puts both types
into its class. -/
def lateConflict : List Equation :=
  [⟨.binder "a" 0, .int⟩, ⟨.numbered 1, .numbered 2⟩, ⟨.bool, .binder "a" 0⟩]

theorem Solution.fault_blames_lateConflict :
    exists fault, (Solution.ofEquations lateConflict).naming = .error fault ∧
      fault = .conflicting [.int, .bool] (.binder "a" 0) [.binder "a" 0, .int, .bool] ∧
      exists before term after, fault.Blames lateConflict before term after := by
  have computed : (Solution.ofEquations lateConflict).naming.map (fun _ => ()) =
      .error (.conflicting [.int, .bool] (.binder "a" 0) [.binder "a" 0, .int, .bool]) := by
    decide +kernel
  cases failed : (Solution.ofEquations lateConflict).naming with
  | ok naming =>
      rw [failed] at computed
      cases computed
  | error fault =>
      rw [failed] at computed
      exact ⟨fault, rfl, Except.error.inj computed, (Solution.fault_blames_first lateConflict failed).1⟩

end Monotype
