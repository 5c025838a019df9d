import Monotype.Proofs.Valuation

namespace Monotype

/-!
# From a derivation to types of terms

A walk hands out new terms only, so a valuation can be extended to them without
disturbing what it says about older terms.  Following a derivation, the extension
satisfies each equation as it is added.  There is no choice on the way: the equations
tie every new term to a term in scope or to a type.
-/

namespace Valuation

variable {valuation extended : Valuation} {books after : Books} {env : Env Term} {term : Term}

/-- A valuation that gives one more term a type of its own. -/
def assign (valuation : Valuation) (term : Term) (new : term.ground? = none) (type : Ground) :
    Valuation where
  type key := if key = term.key then type else valuation.type key
  type_ground := by
    intro ground
    have different : (Term.ground ground).key ≠ term.key := by
      intro same
      rw [Term.eq_ground_of_key same.symm] at new
      cases new
    rw [if_neg different, valuation.type_ground]

theorem typeOf_assign_self (valuation : Valuation) (term : Term) (new : term.ground? = none)
    (type : Ground) : (valuation.assign term new type).typeOf term = type :=
  if_pos rfl

/-- The extended valuation says the same about the terms that the books know. -/
def Keeps (extended valuation : Valuation) (books : Books) : Prop :=
  forall term, books.Knows term -> extended.typeOf term = valuation.typeOf term

theorem keeps_assign {new : term.ground? = none} {type : Ground}
    (different : forall known, books.Knows known -> known.key ≠ term.key) :
    (valuation.assign term new type).Keeps valuation books :=
  fun known isKnown => if_neg (different known isKnown)

namespace Keeps

theorem refl (valuation : Valuation) (books : Books) : valuation.Keeps valuation books :=
  fun _ _ => rfl

theorem trans {between : Valuation} (second : extended.Keeps between after)
    (grown : books.Extends after) (first : between.Keeps valuation books) :
    extended.Keeps valuation books :=
  fun term known => (second term (grown.knows known)).trans (first term known)

theorem satisfies (keeps : extended.Keeps valuation books) (consistent : books.Consistent)
    (satisfied : valuation.Satisfies books) : extended.Satisfies books := by
  intro constraint listed
  have known := consistent.constraints constraint listed
  rw [keeps _ known.1, keeps _ known.2, satisfied constraint listed]

theorem context_eq (keeps : extended.Keeps valuation books) (scopes : books.Scopes env) :
    extended.context env = valuation.context env := by
  funext name
  unfold context
  cases found : env.find? name with
  | none => rfl
  | some term =>
      rw [Option.map_some, Option.map_some, keeps term (scopes name term found).known]

end Keeps

/-- A new term can be given the type of a known term and then be equated with it. -/
theorem exists_assigned (consistent : books.Consistent) (satisfied : valuation.Satisfies books)
    {fresh : Term} (new : fresh.ground? = none)
    (different : forall known, books.Knows known -> known.key ≠ fresh.key) (known : books.Knows term) :
    exists extended : Valuation, extended.Keeps valuation books ∧ extended.Satisfies books ∧
      extended.typeOf fresh = valuation.typeOf term ∧
      extended.typeOf fresh = extended.typeOf term := by
  have keeps : (valuation.assign fresh new (valuation.typeOf term)).Keeps valuation books :=
    keeps_assign different
  have typed := valuation.typeOf_assign_self fresh new (valuation.typeOf term)
  refine ⟨_, keeps, keeps.satisfies consistent satisfied, typed, ?_⟩
  rw [typed, keeps term known]

/-- The shared term of two operands can be given the type of the operands. -/
theorem exists_settled (valuation : Valuation) (books : Books) {comparison : Comparison}
    {op : BinaryOp} {operand result : Ground} (signature : Signature comparison op operand result) :
    exists extended : Valuation, extended.Keeps valuation books ∧
      extended.typeOf (books.operand comparison op) = operand := by
  have fixed := (Signature.iff_operandType?.mp signature).1
  unfold Books.operand
  cases choice : Gather.operandType? comparison op with
  | some type =>
      refine ⟨valuation, Keeps.refl valuation books, ?_⟩
      rw [fixed type choice]
      exact valuation.typeOf_ground type
  | none =>
      refine ⟨valuation.assign books.unknown rfl operand, ?_, valuation.typeOf_assign_self _ _ _⟩
      exact keeps_assign (fun known isKnown => Books.key_ne_unknown isKnown)

end Valuation

namespace Walked

/-- A derivation under a valuation of the terms in scope gives types to the terms of the walk, and
these satisfy its equations. -/
def Extensible {comparison : Comparison} {env : Env Term} {node : Nat} {e : Expr} {books after : Books}
    {term : Term} (_ : Walked comparison env node e books term after) : Prop :=
  forall (valuation : Valuation) (type : Ground), books.Consistent -> books.Scopes env ->
    valuation.Satisfies books -> Derivation comparison (valuation.context env) e type ->
      exists extended : Valuation, extended.Keeps valuation books ∧
        extended.Satisfies after ∧ extended.typeOf term = type

namespace Extensible

variable {comparison : Comparison} {env : Env Term} {node : Nat} {books : Books}
  {place : Option Position}

theorem int {value : Int} :
    Extensible (.int : Walked comparison env node (.int value place) books _ _) := by
  intro valuation type consistent scopes satisfied derivation
  cases derivation
  exact ⟨valuation, Valuation.Keeps.refl _ _, satisfied, valuation.typeOf_ground .int⟩

theorem bool {value : Bool} :
    Extensible (.bool : Walked comparison env node (.bool value place) books _ _) := by
  intro valuation type consistent scopes satisfied derivation
  cases derivation
  exact ⟨valuation, Valuation.Keeps.refl _ _, satisfied, valuation.typeOf_ground .bool⟩

theorem var {name : Text} {term : Term} (found : env.find? name = some term) :
    Extensible (.var found : Walked comparison env node (.var name place) books _ _) := by
  intro valuation type consistent scopes satisfied derivation
  cases derivation with
  | var inContext =>
      rw [Valuation.context, found, Option.map_some] at inContext
      exact ⟨valuation, Valuation.Keeps.refl _ _, satisfied, Option.some.inj inContext⟩

/-- The binder gets the type of the bound expression, and then the unknown for the whole gets the type
of the body. -/
theorem letIn {name : Text} {bound body : Expr} {afterBound afterBody : Books}
    {boundTerm bodyTerm : Term}
    {ofBound : Walked comparison env (node + 1) bound books boundTerm afterBound}
    {ofBody : Walked comparison (env.bind name (afterBound.ledger.binderTerm name))
      (node + 1 + bound.size) body
      ((afterBound.enter name node place).equate (afterBound.ledger.binderTerm name) boundTerm node
        ("binding of " ++ Text.quoted name))
      bodyTerm afterBody}
    (boundExtensible : ofBound.Extensible) (bodyExtensible : ofBody.Extensible) :
    Extensible (.letIn ofBound ofBody) := by
  intro valuation type consistent scopes satisfied derivation
  cases derivation with
  | @letIn _ _ _ _ _ boundType _ boundDerivation bodyDerivation =>
      rcases boundExtensible _ _ consistent scopes satisfied boundDerivation with
        ⟨bounded, boundKeeps, boundSatisfied, boundTyped⟩
      rcases ofBound.consistent consistent scopes with ⟨boundConsistent, boundAccounted⟩
      rcases Valuation.exists_assigned boundConsistent boundSatisfied rfl
        (fun known isKnown => Books.key_ne_binderTerm isKnown name) boundAccounted.known with
        ⟨entered, enteredKeeps, enteredSatisfied, enteredTyped, enteredEqual⟩
      have context_eq : entered.context (env.bind name (afterBound.ledger.binderTerm name)) =
          (valuation.context env).bind name boundType := by
        rw [Valuation.context_bind, enteredTyped, boundTyped,
          (enteredKeeps.trans ofBound.grown boundKeeps).context_eq scopes]
      rw [← context_eq] at bodyDerivation
      have bodyConsistent := boundConsistent.enter name node place boundAccounted.known
        ("binding of " ++ Text.quoted name)
      have bodyScopes := (scopes.mono ofBound.grown).bind name node place boundTerm
        ("binding of " ++ Text.quoted name)
      have beforeBody : entered.Satisfies ((afterBound.enter name node place).equate
          (afterBound.ledger.binderTerm name) boundTerm node ("binding of " ++ Text.quoted name)) :=
        (entered.satisfies_equate_iff _ _ _ _ _).mpr ⟨enteredSatisfied, enteredEqual⟩
      rcases bodyExtensible _ _ bodyConsistent bodyScopes beforeBody bodyDerivation with
        ⟨bodied, bodyKeeps, bodySatisfied, bodyTyped⟩
      rcases ofBody.consistent bodyConsistent bodyScopes with ⟨afterConsistent, bodyAccounted⟩
      rcases Valuation.exists_assigned afterConsistent bodySatisfied rfl
        (fun known isKnown => Books.key_ne_unknown isKnown) bodyAccounted.known with
        ⟨closed, closedKeeps, closedSatisfied, closedTyped, closedEqual⟩
      have entering := ((Books.Extends.refl afterBound).enter name node place).equate
        (afterBound.ledger.binderTerm name) boundTerm node ("binding of " ++ Text.quoted name)
      refine ⟨closed, ?_, ?_, closedTyped.trans bodyTyped⟩
      · have fromBound := (closedKeeps.trans ofBody.grown bodyKeeps).trans entering enteredKeeps
        exact fromBound.trans ofBound.grown boundKeeps
      · exact (closed.satisfies_equate_iff _ _ _ _ _).mpr ⟨closedSatisfied, closedEqual⟩

theorem ite {condition consequent alternate : Expr}
    {afterCondition afterConsequent afterAlternate : Books}
    {conditionTerm consequentTerm alternateTerm : Term}
    {ofCondition : Walked comparison env (node + 1) condition books conditionTerm afterCondition}
    {ofConsequent : Walked comparison env (node + 1 + condition.size) consequent afterCondition
      consequentTerm afterConsequent}
    {ofAlternate : Walked comparison env (node + 1 + condition.size + consequent.size) alternate
      afterConsequent alternateTerm afterAlternate}
    (conditionExtensible : ofCondition.Extensible) (consequentExtensible : ofConsequent.Extensible)
    (alternateExtensible : ofAlternate.Extensible) :
    Extensible (.ite ofCondition ofConsequent ofAlternate :
      Walked comparison env node (.ite condition consequent alternate place) books _ _) := by
  intro valuation type consistent scopes satisfied derivation
  cases derivation with
  | ite conditionDerivation consequentDerivation alternateDerivation =>
      rcases conditionExtensible _ _ consistent scopes satisfied conditionDerivation with
        ⟨first, firstKeeps, firstSatisfied, conditionTyped⟩
      rcases ofCondition.consistent consistent scopes with ⟨conditionConsistent, conditionAccounted⟩
      have consequentScopes := scopes.mono ofCondition.grown
      rw [← firstKeeps.context_eq scopes] at consequentDerivation alternateDerivation
      rcases consequentExtensible _ _ conditionConsistent consequentScopes firstSatisfied
        consequentDerivation with ⟨second, secondKeeps, secondSatisfied, consequentTyped⟩
      rcases ofConsequent.consistent conditionConsistent consequentScopes with
        ⟨consequentConsistent, consequentAccounted⟩
      have alternateScopes := consequentScopes.mono ofConsequent.grown
      rw [← secondKeeps.context_eq consequentScopes] at alternateDerivation
      rcases alternateExtensible _ _ consequentConsistent alternateScopes secondSatisfied
        alternateDerivation with ⟨third, thirdKeeps, thirdSatisfied, alternateTyped⟩
      have consequentKept : third.typeOf consequentTerm = type := by
        rw [thirdKeeps consequentTerm consequentAccounted.known, consequentTyped]
      have conditionKept : third.typeOf conditionTerm = .bool := by
        rw [thirdKeeps.trans ofConsequent.grown secondKeeps conditionTerm conditionAccounted.known,
          conditionTyped]
      refine ⟨third, ?_, ?_, consequentKept⟩
      · exact (thirdKeeps.trans ofConsequent.grown secondKeeps).trans ofCondition.grown firstKeeps
      · rw [Valuation.satisfies_record_iff, Valuation.satisfies_equate_iff,
          Valuation.satisfies_equate_iff]
        refine ⟨⟨thirdSatisfied, ?_⟩, consequentKept.trans alternateTyped.symm⟩
        exact conditionKept.trans (third.typeOf_ground .bool).symm

theorem unary {op : UnaryOp} {operand : Expr} {after : Books} {term : Term}
    {ofOperand : Walked comparison env (node + 1) operand books term after}
    (operandExtensible : ofOperand.Extensible) :
    Extensible
      (.unary ofOperand : Walked comparison env node (.unary op operand place) books _ _) := by
  intro valuation type consistent scopes satisfied derivation
  have parts : type = Gather.unaryType op ∧
      Nonempty (Derivation comparison (valuation.context env) operand (Gather.unaryType op)) := by
    cases derivation with
    | neg ofOperand => exact ⟨rfl, ⟨ofOperand⟩⟩
    | not ofOperand => exact ⟨rfl, ⟨ofOperand⟩⟩
  rcases parts with ⟨type_eq, ⟨operandDerivation⟩⟩
  rcases operandExtensible _ _ consistent scopes satisfied operandDerivation with
    ⟨extended, keeps, operandSatisfied, operandTyped⟩
  refine ⟨extended, keeps, ?_, ?_⟩
  · rw [Valuation.satisfies_record_iff, Valuation.satisfies_equate_iff, extended.typeOf_ground]
    exact ⟨operandSatisfied, operandTyped⟩
  · rw [extended.typeOf_ground, type_eq]

/-- The shared term gets the type of the operands after both have been walked over. -/
theorem binary {op : BinaryOp} {left right : Expr} {afterLeft afterRight : Books}
    {leftTerm rightTerm : Term}
    {ofLeft : Walked comparison env (node + 1) left books leftTerm afterLeft}
    {ofRight : Walked comparison env (node + 1 + left.size) right afterLeft rightTerm afterRight}
    (leftExtensible : ofLeft.Extensible) (rightExtensible : ofRight.Extensible) :
    Extensible
      (.binary ofLeft ofRight : Walked comparison env node (.binary op left right place) books _ _) := by
  intro valuation type consistent scopes satisfied derivation
  cases derivation with
  | @binary _ _ _ _ _ operand _ signature leftDerivation rightDerivation =>
      rcases leftExtensible _ _ consistent scopes satisfied leftDerivation with
        ⟨first, firstKeeps, firstSatisfied, leftTyped⟩
      rcases ofLeft.consistent consistent scopes with ⟨leftConsistent, leftAccounted⟩
      have rightScopes := scopes.mono ofLeft.grown
      rw [← firstKeeps.context_eq scopes] at rightDerivation
      rcases rightExtensible _ _ leftConsistent rightScopes firstSatisfied rightDerivation with
        ⟨second, secondKeeps, secondSatisfied, rightTyped⟩
      rcases ofRight.consistent leftConsistent rightScopes with ⟨rightConsistent, rightAccounted⟩
      rcases second.exists_settled afterRight signature with ⟨third, thirdKeeps, sharedTyped⟩
      have leftKept : third.typeOf leftTerm = operand := by
        rw [thirdKeeps.trans ofRight.grown secondKeeps leftTerm leftAccounted.known, leftTyped]
      have rightKept : third.typeOf rightTerm = operand := by
        rw [thirdKeeps rightTerm rightAccounted.known, rightTyped]
      refine ⟨third, ?_, ?_, ?_⟩
      · exact (thirdKeeps.trans ofRight.grown secondKeeps).trans ofLeft.grown firstKeeps
      · rw [Valuation.satisfies_record_iff, Valuation.satisfies_equate_iff,
          Valuation.satisfies_equate_iff, Valuation.satisfies_settle_iff, sharedTyped]
        exact ⟨⟨thirdKeeps.satisfies rightConsistent secondSatisfied, leftKept⟩, rightKept⟩
      · rw [third.typeOf_ground, (Signature.iff_operandType?.mp signature).2]

end Extensible

/-- Following a derivation, every walk can be given types. -/
theorem extensible {comparison : Comparison} {env : Env Term} {node : Nat} {e : Expr}
    {books after : Books} {term : Term} (walked : Walked comparison env node e books term after) :
    walked.Extensible := by
  induction walked with
  | int => exact Extensible.int
  | bool => exact Extensible.bool
  | var found => exact Extensible.var found
  | letIn _ _ boundExtensible bodyExtensible => exact Extensible.letIn boundExtensible bodyExtensible
  | ite _ _ _ conditionExtensible consequentExtensible alternateExtensible =>
      exact Extensible.ite conditionExtensible consequentExtensible alternateExtensible
  | unary _ operandExtensible => exact Extensible.unary operandExtensible
  | binary _ _ leftExtensible rightExtensible => exact Extensible.binary leftExtensible rightExtensible

end Walked

/-! ## Uniqueness -/

namespace Valuation

/-- Two valuations give the same types to the left sides of all equations. -/
def Agree (first second : Valuation) (books : Books) : Prop :=
  forall constraint, constraint ∈ books.ledger.constraints ->
    first.typeOf constraint.left = second.typeOf constraint.left

theorem Agree.equate {first second : Valuation} {books : Books} (agree : first.Agree second books)
    {left : Term} (same : first.typeOf left = second.typeOf left) (right : Term) (node : Nat)
    (reason : Text) : first.Agree second (books.equate left right node reason) := by
  intro constraint listed
  rcases List.mem_append.mp listed with earlier | new
  · exact agree constraint earlier
  · rw [List.mem_singleton.mp new]
    exact same

theorem Agree.settle {first second : Valuation} {books : Books} (agree : first.Agree second books)
    (comparison : Comparison) (op : BinaryOp) : first.Agree second (books.settle comparison op) := by
  unfold Agree
  rwa [books.ledger_settle]

end Valuation

/-- Valuations that satisfy the equations of a walk and agree on the terms in scope
agree on all terms that the walk has handed out and put into equations. -/
theorem Walked.agree {comparison : Comparison} {env : Env Term} {node : Nat} {e : Expr}
    {books after : Books} {term : Term} (walked : Walked comparison env node e books term after)
    {first second : Valuation} (firstSatisfied : first.Satisfies after)
    (secondSatisfied : second.Satisfies after) (scope_eq : first.context env = second.context env)
    (agree : first.Agree second books) :
    first.typeOf term = second.typeOf term ∧ first.Agree second after := by
  induction walked with
  | int => exact ⟨(first.typeOf_ground .int).trans (second.typeOf_ground .int).symm, agree⟩
  | bool => exact ⟨(first.typeOf_ground .bool).trans (second.typeOf_ground .bool).symm, agree⟩
  | @var env _ name _ _ term found =>
      have same := congrFun scope_eq name
      rw [Valuation.context, Valuation.context, found, Option.map_some, Option.map_some] at same
      exact ⟨Option.some.inj same, agree⟩
  | @letIn env _ name _ _ _ _ afterBound afterBody _ _ ofBound ofBody boundIh bodyIh =>
      rw [Valuation.satisfies_record_iff, Valuation.satisfies_equate_iff,
        Valuation.satisfies_issue_iff] at firstSatisfied secondSatisfied
      have firstEntered := firstSatisfied.1.of_extends ofBody.grown
      have secondEntered := secondSatisfied.1.of_extends ofBody.grown
      rw [Valuation.satisfies_equate_iff, Valuation.satisfies_enter_iff] at firstEntered secondEntered
      rcases boundIh firstEntered.1 secondEntered.1 scope_eq agree with ⟨boundSame, boundAgree⟩
      have binderSame : first.typeOf (afterBound.ledger.binderTerm name) =
          second.typeOf (afterBound.ledger.binderTerm name) := by
        rw [firstEntered.2, secondEntered.2, boundSame]
      have body_eq : first.context (env.bind name (afterBound.ledger.binderTerm name)) =
          second.context (env.bind name (afterBound.ledger.binderTerm name)) := by
        rw [Valuation.context_bind, Valuation.context_bind, scope_eq, binderSame]
      rcases bodyIh firstSatisfied.1 secondSatisfied.1 body_eq (boundAgree.equate binderSame _ _ _) with
        ⟨bodySame, bodyAgree⟩
      have resultSame : first.typeOf afterBody.unknown = second.typeOf afterBody.unknown := by
        rw [firstSatisfied.2, secondSatisfied.2, bodySame]
      exact ⟨resultSame, bodyAgree.equate resultSame _ _ _⟩
  | ite ofCondition ofConsequent ofAlternate conditionIh consequentIh alternateIh =>
      rw [Valuation.satisfies_record_iff, Valuation.satisfies_equate_iff,
        Valuation.satisfies_equate_iff] at firstSatisfied secondSatisfied
      have firstConsequent := firstSatisfied.1.1.of_extends ofAlternate.grown
      have secondConsequent := secondSatisfied.1.1.of_extends ofAlternate.grown
      rcases conditionIh (firstConsequent.of_extends ofConsequent.grown)
        (secondConsequent.of_extends ofConsequent.grown) scope_eq agree with
        ⟨conditionSame, conditionAgree⟩
      rcases consequentIh firstConsequent secondConsequent scope_eq conditionAgree with
        ⟨consequentSame, consequentAgree⟩
      rcases alternateIh firstSatisfied.1.1 secondSatisfied.1.1 scope_eq consequentAgree with
        ⟨_, alternateAgree⟩
      exact ⟨consequentSame, (alternateAgree.equate conditionSame _ _ _).equate consequentSame _ _ _⟩
  | unary ofOperand ih =>
      rw [Valuation.satisfies_record_iff, Valuation.satisfies_equate_iff] at firstSatisfied secondSatisfied
      rcases ih firstSatisfied.1 secondSatisfied.1 scope_eq agree with ⟨operandSame, operandAgree⟩
      refine ⟨?_, operandAgree.equate operandSame _ _ _⟩
      rw [first.typeOf_ground, second.typeOf_ground]
  | @binary _ _ op _ _ _ _ _ _ _ _ ofLeft ofRight leftIh rightIh =>
      rw [Valuation.satisfies_record_iff, Valuation.satisfies_equate_iff,
        Valuation.satisfies_equate_iff, Valuation.satisfies_settle_iff] at firstSatisfied secondSatisfied
      rcases leftIh (firstSatisfied.1.1.of_extends ofRight.grown)
        (secondSatisfied.1.1.of_extends ofRight.grown) scope_eq agree with ⟨leftSame, leftAgree⟩
      rcases rightIh firstSatisfied.1.1 secondSatisfied.1.1 scope_eq leftAgree with
        ⟨rightSame, rightAgree⟩
      have settled := rightAgree.settle comparison op
      refine ⟨?_, (settled.equate leftSame _ _ _).equate rightSame _ _ _⟩
      rw [first.typeOf_ground, second.typeOf_ground]

/-- The equations in the books leave no choice. -/
def Books.Determined (books : Books) : Prop :=
  forall first second : Valuation, first.Satisfies books -> second.Satisfies books ->
    first.Agree second books

/-- The equations of a whole program leave no choice if the earlier ones left none. -/
theorem Walked.determined {comparison : Comparison} {node : Nat} {e : Expr} {books after : Books}
    {root : Term} (walked : Walked comparison [] node e books root after)
    (determined : books.Determined) : after.Determined := by
  intro first second firstSatisfied secondSatisfied
  have earlier := determined first second (firstSatisfied.of_extends walked.grown)
    (secondSatisfied.of_extends walked.grown)
  exact (walked.agree firstSatisfied secondSatisfied rfl earlier).2

end Monotype
