import Monotype.Proofs.Inference

namespace Monotype

/-!
# Every class of a program holds a type

A walk never leaves a term hanging.  A binder is equated with its bound term, the result of a
binding with its body, and the shared unknown of two operands with the operands, so the equations
relate every term of a program to a type.  Hence each class of a program holds one of the two
types, there are at most two classes, and the only fault left is a class that holds both types.
That class then holds all terms of the program.
-/

/-! ## Related to a type -/

namespace Equation

/-- A key that is related to an occurring one occurs as well. -/
theorem Occurs.of_equates {equations : List Equation} {left right : Text}
    (occurs : Occurs equations left) (related : Equates equations left right) :
    Occurs equations right := by
  have same : Occurs equations left = Occurs equations right := by
    apply Forest.Connected.congr (Occurs equations) _ related
    intro pair member
    rcases List.mem_map.mp member with ⟨equation, listed, rfl⟩
    exact propext (iff_of_true ⟨equation, listed, Or.inl rfl⟩ ⟨equation, listed, Or.inr rfl⟩)
  rwa [← same]

end Equation

namespace Books

variable {books after : Books} {term : Term}

/-- The equations in the books relate the term to a type. -/
def Grounds (books : Books) (term : Term) : Prop :=
  exists type, Equation.Equates books.equations term.key (Term.ground type).key

theorem grounds_ground (books : Books) (type : Ground) : books.Grounds (.ground type) :=
  ⟨type, Forest.Connected.refl _⟩

theorem Extends.grounds (grown : books.Extends after) (grounded : books.Grounds term) :
    after.Grounds term := by
  rcases grounded with ⟨type, related⟩
  refine ⟨type, related.mono ?_⟩
  intro pair member
  rcases List.mem_map.mp member with ⟨equation, listed, rfl⟩
  rcases (books.mem_equations_iff equation).mp listed with ⟨constraint, earlier, rfl⟩
  exact List.mem_map_of_mem
    ((after.mem_equations_iff _).mpr ⟨constraint, grown.constraints.subset earlier, rfl⟩)

/-- A new equation shares what one of its sides is related to with the other side. -/
theorem grounds_equate (left right : Term) (node : Nat) (reason : Text)
    (either : books.Grounds left ∨ books.Grounds right) :
    (books.equate left right node reason).Grounds left ∧
      (books.equate left right node reason).Grounds right := by
  have grown := (Extends.refl books).equate left right node reason
  have listed : ⟨left, right⟩ ∈ (books.equate left right node reason).equations :=
    (mem_equations_iff _ _).mpr ⟨_, List.mem_append_right _ List.mem_cons_self, rfl⟩
  have related := Equation.equates_of_mem listed
  rcases either with leftGrounded | rightGrounded
  · rcases grown.grounds leftGrounded with ⟨type, toType⟩
    exact ⟨⟨type, toType⟩, type, related.symm.trans toType⟩
  · rcases grown.grounds rightGrounded with ⟨type, toType⟩
    exact ⟨⟨type, related.trans toType⟩, type, toType⟩

/-- All terms in equations are related to types. -/
def Grounded (books : Books) : Prop :=
  forall constraint, constraint ∈ books.ledger.constraints ->
    books.Grounds constraint.left ∧ books.Grounds constraint.right

theorem grounded_empty : ({} : Books).Grounded := by
  intro constraint listed
  cases listed

theorem Grounded.equate (grounded : books.Grounded) (left right : Term) (node : Nat) (reason : Text)
    (either : books.Grounds left ∨ books.Grounds right) :
    (books.equate left right node reason).Grounded := by
  intro constraint listed
  rcases List.mem_append.mp listed with earlier | new
  · have grown := (Extends.refl books).equate left right node reason
    exact (grounded constraint earlier).imp grown.grounds grown.grounds
  · rw [List.mem_singleton.mp new]
    exact grounds_equate left right node reason either

theorem Grounded.settle (grounded : books.Grounded) (comparison : Comparison) (op : BinaryOp) :
    (books.settle comparison op).Grounded := by
  unfold Grounded Grounds equations
  rwa [books.ledger_settle]

/-- All terms in scope are related to types. -/
def GroundsScope (books : Books) (env : Env Term) : Prop :=
  forall name found, env.find? name = some found -> books.Grounds found

theorem groundsScope_empty (books : Books) : books.GroundsScope [] := by
  intro name found isFound
  cases isFound

theorem GroundsScope.mono {env : Env Term} (scope : books.GroundsScope env)
    (grown : books.Extends after) : after.GroundsScope env :=
  fun name found isFound => grown.grounds (scope name found isFound)

theorem GroundsScope.bind {env : Env Term} (scope : books.GroundsScope env) (name : Text)
    (grounded : books.Grounds term) : books.GroundsScope (env.bind name term) := by
  intro probe found isFound
  rw [Env.find?_bind] at isFound
  by_cases same : name = probe
  · rw [if_pos same] at isFound
    cases isFound
    exact grounded
  · rw [if_neg same] at isFound
    exact scope probe found isFound

end Books

/-- A walk relates all terms that it hands out to types. -/
theorem Walked.grounded {comparison : Comparison} {env : Env Term} {node : Nat} {e : Expr}
    {books after : Books} {term : Term} (walked : Walked comparison env node e books term after)
    (grounded : books.Grounded) (scope : books.GroundsScope env) :
    after.Grounded ∧ after.Grounds term := by
  induction walked with
  | int => exact ⟨grounded, Books.grounds_ground _ .int⟩
  | bool => exact ⟨grounded, Books.grounds_ground _ .bool⟩
  | var found => exact ⟨grounded, scope _ _ found⟩
  | @letIn env node name _ _ place _ afterBound afterBody boundTerm bodyTerm ofBound ofBody boundIh bodyIh =>
      rcases boundIh grounded scope with ⟨boundGrounded, boundGrounds⟩
      have entered : (afterBound.enter name node place).Grounded := boundGrounded
      have boundEntered : (afterBound.enter name node place).Grounds boundTerm := boundGrounds
      have bound := entered.equate (afterBound.ledger.binderTerm name) boundTerm node
        ("binding of " ++ Text.quoted name) (Or.inr boundEntered)
      have binderGrounds := (Books.grounds_equate (afterBound.ledger.binderTerm name) boundTerm node
        ("binding of " ++ Text.quoted name) (Or.inr boundEntered)).1
      have grown := ofBound.grown.trans (((Books.Extends.refl afterBound).enter name node place).equate
        (afterBound.ledger.binderTerm name) boundTerm node ("binding of " ++ Text.quoted name))
      rcases bodyIh bound ((scope.mono grown).bind name binderGrounds) with ⟨bodyGrounded, bodyGrounds⟩
      have issued : afterBody.issue.Grounded := bodyGrounded
      have bodyIssued : afterBody.issue.Grounds bodyTerm := bodyGrounds
      exact ⟨issued.equate _ _ _ _ (Or.inr bodyIssued),
        (Books.grounds_equate _ _ _ _ (Or.inr bodyIssued)).1⟩
  | @ite _ node _ _ _ _ _ _ _ afterAlternate conditionTerm consequentTerm alternateTerm ofCondition
      ofConsequent ofAlternate conditionIh consequentIh alternateIh =>
      rcases conditionIh grounded scope with ⟨conditionGrounded, _⟩
      rcases consequentIh conditionGrounded (scope.mono ofCondition.grown) with
        ⟨consequentGrounded, consequentGrounds⟩
      rcases alternateIh consequentGrounded (scope.mono (ofCondition.grown.trans ofConsequent.grown)) with
        ⟨alternateGrounded, _⟩
      have tested := alternateGrounded.equate conditionTerm .bool node "condition must be bool"
        (Or.inr (Books.grounds_ground _ .bool))
      have consequentKept := (ofAlternate.grown.equate conditionTerm .bool node
        "condition must be bool").grounds consequentGrounds
      exact ⟨tested.equate _ _ _ _ (Or.inl consequentKept),
        (Books.grounds_equate _ _ _ _ (Or.inl consequentKept)).1⟩
  | unary ofOperand ih =>
      rcases ih grounded scope with ⟨operandGrounded, operandGrounds⟩
      exact ⟨operandGrounded.equate _ _ _ _ (Or.inl operandGrounds), Books.grounds_ground _ _⟩
  | @binary _ node op _ _ _ _ _ afterRight leftTerm rightTerm ofLeft ofRight leftIh rightIh =>
      rcases leftIh grounded scope with ⟨leftGrounded, leftGrounds⟩
      rcases rightIh leftGrounded (scope.mono ofLeft.grown) with ⟨rightGrounded, rightGrounds⟩
      have leftKept := (ofRight.grown.settle comparison op).grounds leftGrounds
      have shared := (rightGrounded.settle comparison op).equate leftTerm
        (afterRight.operand comparison op) node ("left operand of " ++ op.name) (Or.inl leftKept)
      have rightKept := (((Books.Extends.refl afterRight).settle comparison op).equate leftTerm
        (afterRight.operand comparison op) node ("left operand of " ++ op.name)).grounds rightGrounds
      exact ⟨shared.equate _ _ _ _ (Or.inl rightKept), Books.grounds_ground _ _⟩

/-! ## Classes that hold a type -/

namespace ClassMap
namespace Canonical

variable {map : ClassMap} {related : Text -> Text -> Prop} {seen : List Term}

theorem nodup_classes (canonical : map.Canonical related seen) : map.classes.Nodup := by
  apply List.Nodup.of_map TermClass.id
  rw [canonical.ids_eq]
  exact List.nodup_range

/-- Classes with a common member are one class. -/
theorem class_unique (canonical : map.Canonical related seen) (equivalence : Equivalence related)
    {first second : TermClass} (firstListed : first ∈ map.classes) (secondListed : second ∈ map.classes)
    {term : Term} (inFirst : term ∈ first.members) (inSecond : term ∈ second.members) :
    first = second := by
  have firstFound := (canonical.find?_of_mem_members equivalence firstListed inFirst).2
  have secondFound := (canonical.find?_of_mem_members equivalence secondListed inSecond).2
  exact Option.some.inj (firstFound.symm.trans secondFound)

/-- If every class holds a type, then there are no more classes than types. -/
theorem length_classes_le_two (canonical : map.Canonical related seen) (equivalence : Equivalence related)
    (holds : forall termClass, termClass ∈ map.classes ->
      exists type, Term.ground type ∈ termClass.members) : map.classes.length ≤ 2 := by
  let type (termClass : TermClass) : Ground := if Term.int ∈ termClass.members then .int else .bool
  have held : forall termClass, termClass ∈ map.classes ->
      Term.ground (type termClass) ∈ termClass.members := by
    intro termClass listed
    rcases holds termClass listed with ⟨ground, member⟩
    by_cases hasInt : Term.int ∈ termClass.members
    · simp only [type, if_pos hasInt]
      exact hasInt
    · cases ground with
      | int => exact absurd member hasInt
      | bool =>
          simp only [type, if_neg hasInt]
          exact member
  have nodup : (map.classes.map type).Nodup := by
    refine List.Nodup.map_on ?_ canonical.nodup_classes
    intro first firstListed second secondListed same
    have inFirst := held first firstListed
    rw [same] at inFirst
    exact canonical.class_unique equivalence firstListed secondListed inFirst (held second secondListed)
  have subset : map.classes.map type ⊆ [.int, .bool] := by
    intro ground _
    cases ground <;> decide
  have bound := (List.subperm_of_subset nodup subset).length_le
  rwa [List.length_map] at bound

/-- If every class holds a type and one class holds both, then it is the only one and holds all
terms. -/
theorem classes_eq_singleton (canonical : map.Canonical related seen) (equivalence : Equivalence related)
    (holds : forall termClass, termClass ∈ map.classes ->
      exists type, Term.ground type ∈ termClass.members)
    {termClass : TermClass} (listed : termClass ∈ map.classes)
    (both : forall type, Term.ground type ∈ termClass.members) :
    map.classes = [⟨0, seen⟩] ∧ termClass.members = seen := by
  have same : forall other, other ∈ map.classes -> other = termClass := by
    intro other otherListed
    rcases holds other otherListed with ⟨type, member⟩
    exact canonical.class_unique equivalence otherListed listed member (both type)
  have single : map.classes = [termClass] := by
    have replicated := List.eq_replicate_of_mem same
    have nodup := canonical.nodup_classes
    have nonempty := List.length_pos_of_mem listed
    rw [replicated, List.nodup_replicate] at nodup
    have one : map.classes.length = 1 := by omega
    rw [replicated, one, List.replicate_one]
  have atZero : map.classes[0]? = some termClass := by rw [single]; rfl
  rcases canonical.class_eq equivalence atZero with ⟨leader, _, class_eq⟩
  have members_eq : relatives related seen leader = seen := by
    apply List.filter_eq_self.mpr
    intro term inSeen
    rcases canonical.exists_class inSeen with ⟨own, ownListed, _, members⟩
    have member := (members term).mpr ⟨inSeen, equivalence.refl term.key⟩
    rw [same own ownListed, class_eq] at member
    exact (kin_iff related leader term).mpr (mem_relatives.mp member).2
  rw [members_eq] at class_eq
  exact ⟨by rw [single, class_eq], by rw [class_eq]⟩

end Canonical
end ClassMap

namespace Walked

variable {comparison : Comparison} {e : Expr} {root : Term} {books : Books}

/-- Every class of a program holds a type. -/
theorem class_holds_type (walked : Walked comparison [] 0 e {} root books) {termClass : TermClass}
    (listed : termClass ∈ (ClassMap.ofEquations books.equations).classes) :
    exists type, Term.ground type ∈ termClass.members := by
  have canonical := ClassMap.canonical_ofEquations books.equations
  have equivalence := Equation.equates_equivalence books.equations
  have grounded := (walked.grounded Books.grounded_empty (Books.groundsScope_empty _)).1
  rcases canonical.exists_mem_members equivalence listed with ⟨term, member⟩
  rcases canonical.find?_of_mem_members equivalence listed member with ⟨inSeen, found⟩
  have occurs := (Equation.occurs_iff books.equations _).mpr (List.mem_map_of_mem inSeen)
  have grounds : books.Grounds term := by
    rcases occurs with ⟨equation, inEquations, side⟩
    rcases (books.mem_equations_iff equation).mp inEquations with ⟨constraint, inBooks, rfl⟩
    unfold Books.Grounds
    rcases side with left | right
    · rw [← left]
      exact (grounded constraint inBooks).1
    · rw [← right]
      exact (grounded constraint inBooks).2
  rcases grounds with ⟨type, related⟩
  have typeSeen := Equation.ground_mem_seen (occurs.of_equates related)
  rcases canonical.exists_class inSeen with ⟨own, _, ownFound, members⟩
  cases Option.some.inj (found.symm.trans ownFound)
  exact ⟨type, (members _).mpr ⟨typeSeen, related⟩⟩

end Walked

namespace Expr

/-- Every class of a well-scoped program holds a type.  Inference of such a program fails only on a
conflict: all its terms are then in one class, which is reported whole and by its first member that
is no type.  If inference succeeds, then there are at most two classes. -/
theorem infer_fault_conflicting (e : Expr) (comparison : Comparison) (wellScoped : e.isWellScoped = true) :
    exists gathered inference,
      e.constraints comparison = .ok gathered ∧ e.infer comparison = .ok inference ∧
      inference.classes = ClassMap.ofEquations (Inference.equations gathered.constraints) ∧
      (forall termClass, termClass ∈ inference.classes.distinct ->
        Term.int ∈ termClass.members ∨ Term.bool ∈ termClass.members) ∧
      (forall fault, inference.typing = .error fault ->
        let seen := Equation.seen (Inference.equations gathered.constraints)
        fault.kind = "conflicting" ∧ inference.classes.distinct = [⟨0, seen⟩] ∧ fault.members = seen ∧
          some fault.term = (seen.find? (fun term => !term.isGround)).or seen.head?) ∧
      (forall typing, inference.typing = .ok typing -> inference.classes.distinct.length ≤ 2) := by
  rcases e.constraints_eq_ok wellScoped comparison with ⟨root, books, walked, gathered⟩
  rcases Inference.exists_follows walked with ⟨inference, inferred, follows⟩
  have canonical := ClassMap.canonical_ofEquations books.equations
  have equivalence := Equation.equates_equivalence books.equations
  have distinct_eq : inference.classes.distinct = (ClassMap.ofEquations books.equations).classes := by
    rw [follows.classes_eq]
    exact canonical.distinct_eq equivalence (Equation.nodup_seen books.equations)
  have holds : forall termClass, termClass ∈ (ClassMap.ofEquations books.equations).classes ->
      exists type, Term.ground type ∈ termClass.members := fun _ => walked.class_holds_type
  refine ⟨_, inference, gathered, ?_, follows.classes_eq, ?_, ?_, ?_⟩
  · rw [infer, gathered]
    exact inferred
  · intro termClass listed
    rw [distinct_eq] at listed
    rcases holds termClass listed with ⟨type, member⟩
    cases type with
    | int => exact Or.inl member
    | bool => exact Or.inr member
  · intro fault failed
    rcases Solution.class_untyped (follows.naming_eq fault failed) with
      ⟨termClass, listed, ⟨_, neither⟩ | ⟨types, rfl, both⟩⟩
    · rcases holds termClass listed with ⟨type, member⟩
      exact absurd member (neither type)
    · rcases canonical.classes_eq_singleton equivalence holds listed both with ⟨single, members_eq⟩
      have exemplar_eq := TermClass.some_exemplar (both .int)
      rw [members_eq] at exemplar_eq
      exact ⟨rfl, distinct_eq.trans single, members_eq, exemplar_eq⟩
  · intro typing _
    rw [distinct_eq]
    exact canonical.length_classes_le_two equivalence holds

/-- A number that is used as a truth value. -/
def contested : Expr :=
  letIn "n" (int 1 none) (binary .eql (unary .not (var "n" none) none) (bool false none) none) none

theorem not_derivation_contested {type : Ground} (derivation : Derivation .int .empty contested type) :
    False := by
  cases derivation with
  | letIn ofBound ofBody =>
      cases ofBound with
      | int =>
          cases ofBody with
          | binary signature ofLeft ofRight =>
              cases ofLeft with
              | not ofName =>
                  cases ofName with
                  | var found => cases found

theorem infer_contested : contested.isWellScoped = true ∧
    exists inference fault, contested.infer .int = .ok inference ∧ inference.typing = .error fault ∧
      fault.kind = "conflicting" ∧ fault.term = .binder "n" 0 ∧
      fault.members = [.binder "n" 0, .int, .bool, .numbered 1, .numbered 2] ∧
      inference.classes.distinct.length = 1 := by
  have wellScoped : contested.isWellScoped = true := by decide
  refine ⟨wellScoped, ?_⟩
  rcases infer_fault_conflicting contested .int wellScoped with
    ⟨gathered, inference, constrained, inferred, _, _, conflicting, _⟩
  rcases infer_cases wellScoped .int with ⟨other, inferred', outcome⟩
  cases inferred.symm.trans inferred'
  rcases outcome with ⟨_, _, derivation, _⟩ | ⟨⟨fault, failed⟩, _⟩
  · exact (not_derivation_contested derivation).elim
  · cases constrained
    rcases conflicting fault failed with ⟨kind_eq, single, members_eq, term_eq⟩
    refine ⟨inference, fault, inferred, failed, kind_eq, ?_, members_eq, ?_⟩
    · exact Option.some.inj term_eq
    · rw [single, List.length_singleton]

end Expr

end Monotype
