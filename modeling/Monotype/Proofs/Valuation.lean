import Monotype.Proofs.Typing
import Monotype.Proofs.Walk.Growth

namespace Monotype

/-!
# Types for terms

A valuation gives a type to every term.  If it satisfies the equations that a walk has
left in the books, then it turns the terms of the walk into a derivation.  Conversely,
a valuation of the terms in scope and a derivation under it determine types for all
terms that the walk hands out, which satisfy its equations.  Two valuations that agree
on the terms in scope and satisfy the equations agree on all terms of the walk.
-/

/-- Types for terms, by their keys; a type denotes itself. -/
structure Valuation where
  type : Text -> Ground
  type_ground : forall ground, type (Term.ground ground).key = ground

namespace Valuation

variable {books after : Books}

def typeOf (valuation : Valuation) (term : Term) : Ground :=
  valuation.type term.key

def context (valuation : Valuation) (env : Env Term) : Context :=
  fun name => (env.find? name).map valuation.typeOf

/-- Both sides of every equation have one type. -/
def Satisfies (valuation : Valuation) (books : Books) : Prop :=
  forall constraint, constraint ∈ books.ledger.constraints ->
    valuation.typeOf constraint.left = valuation.typeOf constraint.right

def nodeTypes (valuation : Valuation) (books : Books) : List (Nat × Ground) :=
  books.ledger.nodeTerms.entries.map (fun entry => (entry.1, valuation.typeOf entry.2))

/-- The names, nodes and types of the binders in the books. -/
def bindings (valuation : Valuation) (books : Books) : List (Text × Nat × Ground) :=
  books.ledger.binders.map (fun binder => (binder.name, binder.node, valuation.typeOf binder.term))

theorem typeOf_ground (valuation : Valuation) (type : Ground) :
    valuation.typeOf (.ground type) = type :=
  valuation.type_ground type

theorem context_bind (valuation : Valuation) (env : Env Term) (name : Text) (term : Term) :
    valuation.context (env.bind name term) =
      (valuation.context env).bind name (valuation.typeOf term) := by
  funext probe
  rw [context, Env.find?_bind, Context.bind]
  by_cases same : name = probe
  · rw [if_pos same, if_pos same, Option.map_some]
  · rw [if_neg same, if_neg same, context]

theorem Satisfies.of_extends {valuation : Valuation} (satisfied : valuation.Satisfies after)
    (grown : books.Extends after) : valuation.Satisfies books :=
  fun constraint listed => satisfied constraint (grown.constraints.subset listed)

theorem satisfies_equate_iff (valuation : Valuation) (books : Books) (left right : Term) (node : Nat)
    (reason : Text) : valuation.Satisfies (books.equate left right node reason) ↔
      valuation.Satisfies books ∧ valuation.typeOf left = valuation.typeOf right := by
  constructor
  · intro satisfied
    refine ⟨satisfied.of_extends ((Books.Extends.refl books).equate _ _ _ _), ?_⟩
    exact satisfied _ (List.mem_append_right _ List.mem_cons_self)
  · rintro ⟨satisfied, agree⟩ constraint listed
    rcases List.mem_append.mp listed with earlier | new
    · exact satisfied constraint earlier
    · rw [List.mem_singleton.mp new]
      exact agree

theorem satisfies_record_iff (valuation : Valuation) (books : Books) (node : Nat) (term : Term) :
    valuation.Satisfies (books.record node term) ↔ valuation.Satisfies books :=
  Iff.rfl

theorem satisfies_enter_iff (valuation : Valuation) (books : Books) (name : Text) (node : Nat)
    (place : Option Position) :
    valuation.Satisfies (books.enter name node place) ↔ valuation.Satisfies books :=
  Iff.rfl

theorem satisfies_issue_iff (valuation : Valuation) (books : Books) :
    valuation.Satisfies books.issue ↔ valuation.Satisfies books :=
  Iff.rfl

theorem satisfies_settle_iff (valuation : Valuation) (books : Books) (comparison : Comparison)
    (op : BinaryOp) : valuation.Satisfies (books.settle comparison op) ↔ valuation.Satisfies books := by
  unfold Satisfies
  rw [books.ledger_settle]

@[simp]
theorem nodeTypes_equate (valuation : Valuation) (books : Books) (left right : Term) (node : Nat)
    (reason : Text) :
    valuation.nodeTypes (books.equate left right node reason) = valuation.nodeTypes books :=
  rfl

@[simp]
theorem nodeTypes_enter (valuation : Valuation) (books : Books) (name : Text) (node : Nat)
    (place : Option Position) :
    valuation.nodeTypes (books.enter name node place) = valuation.nodeTypes books :=
  rfl

@[simp]
theorem nodeTypes_issue (valuation : Valuation) (books : Books) :
    valuation.nodeTypes books.issue = valuation.nodeTypes books :=
  rfl

@[simp]
theorem nodeTypes_settle (valuation : Valuation) (books : Books) (comparison : Comparison)
    (op : BinaryOp) :
    valuation.nodeTypes (books.settle comparison op) = valuation.nodeTypes books := by
  unfold nodeTypes
  rw [books.ledger_settle]

theorem nodeTypes_record (valuation : Valuation) {books : Books} {node : Nat}
    (vacant : books.Vacant node (node + 1)) (term : Term) :
    valuation.nodeTypes (books.record node term) =
      valuation.nodeTypes books ++ [(node, valuation.typeOf term)] := by
  have absent := vacant node (Nat.le_refl node) (Nat.lt_succ_self node)
  have appended := books.ledger.nodeTerms.entries_insert_of_not_mem node term absent
  change (books.ledger.nodeTerms.insert node term).entries.map _ = _
  rw [appended, List.map_append]
  rfl

@[simp]
theorem bindings_equate (valuation : Valuation) (books : Books) (left right : Term) (node : Nat)
    (reason : Text) :
    valuation.bindings (books.equate left right node reason) = valuation.bindings books :=
  rfl

@[simp]
theorem bindings_record (valuation : Valuation) (books : Books) (node : Nat) (term : Term) :
    valuation.bindings (books.record node term) = valuation.bindings books :=
  rfl

@[simp]
theorem bindings_issue (valuation : Valuation) (books : Books) :
    valuation.bindings books.issue = valuation.bindings books :=
  rfl

@[simp]
theorem bindings_settle (valuation : Valuation) (books : Books) (comparison : Comparison)
    (op : BinaryOp) :
    valuation.bindings (books.settle comparison op) = valuation.bindings books := by
  unfold bindings
  rw [books.ledger_settle]

theorem bindings_enter (valuation : Valuation) (books : Books) (name : Text) (node : Nat)
    (place : Option Position) :
    valuation.bindings (books.enter name node place) =
      valuation.bindings books ++ [(name, node, valuation.typeOf (books.ledger.binderTerm name))] := by
  change (books.ledger.binders ++ [_]).map _ = _
  rw [List.map_append]
  rfl

end Valuation

theorem Signature.iff_operandType? {comparison : Comparison} {op : BinaryOp} {operand result : Ground} :
    Signature comparison op operand result ↔
      (forall type, Gather.operandType? comparison op = some type -> operand = type) ∧
        result = Gather.resultType op := by
  rw [iff_family]
  unfold Gather.operandType? Gather.resultType
  cases op.family with
  | arithmetic => simp
  | logical => simp
  | equality => simp
  | ordering => cases comparison <;> simp [and_comm]

/-! ## From types of terms to a derivation -/

namespace Walked

/-- Types that satisfy the equations of the walk make up a derivation, and the derivation has the
nodes and the bindings that the walk has added to the books. -/
def Derives (valuation : Valuation) {comparison : Comparison} {env : Env Term} {node : Nat} {e : Expr}
    {books after : Books} {term : Term} (_ : Walked comparison env node e books term after) : Prop :=
  forall type : Ground, valuation.Satisfies after -> books.Vacant node (node + e.size) ->
    valuation.typeOf term = type ->
      exists derivation : Derivation comparison (valuation.context env) e type,
        valuation.nodeTypes after = valuation.nodeTypes books ++ derivation.nodeTypes node ∧
        valuation.bindings after = valuation.bindings books ++ derivation.bindings node

namespace Derives

variable {valuation : Valuation} {comparison : Comparison} {env : Env Term} {node : Nat}
  {books : Books} {place : Option Position}

theorem int {value : Int} :
    Derives valuation (.int : Walked comparison env node (.int value place) books _ _) := by
  intro type satisfied vacant typed
  cases (valuation.typeOf_ground .int).symm.trans typed
  refine ⟨.int, ?_, (List.append_nil _).symm⟩
  rw [valuation.nodeTypes_record vacant, Derivation.nodeTypes, Term.int, valuation.typeOf_ground]

theorem bool {value : Bool} :
    Derives valuation (.bool : Walked comparison env node (.bool value place) books _ _) := by
  intro type satisfied vacant typed
  cases (valuation.typeOf_ground .bool).symm.trans typed
  refine ⟨.bool, ?_, (List.append_nil _).symm⟩
  rw [valuation.nodeTypes_record vacant, Derivation.nodeTypes, Term.bool, valuation.typeOf_ground]

theorem var {name : Text} {term : Term} (found : env.find? name = some term) :
    Derives valuation (.var found : Walked comparison env node (.var name place) books _ _) := by
  intro type satisfied vacant typed
  have inContext : valuation.context env name = some type := by
    rw [Valuation.context, found, Option.map_some, typed]
  refine ⟨.var inContext, ?_, (List.append_nil _).symm⟩
  rw [valuation.nodeTypes_record vacant, Derivation.nodeTypes, typed]

/-- The equation of the binder gives it the type of the bound expression, under which the body is
derived. -/
theorem letIn {name : Text} {bound body : Expr} {afterBound afterBody : Books}
    {boundTerm bodyTerm : Term}
    {ofBound : Walked comparison env (node + 1) bound books boundTerm afterBound}
    {ofBody : Walked comparison (env.bind name (afterBound.ledger.binderTerm name))
      (node + 1 + bound.size) body
      ((afterBound.enter name node place).equate (afterBound.ledger.binderTerm name) boundTerm node
        ("binding of " ++ Text.quoted name))
      bodyTerm afterBody}
    (boundDerives : ofBound.Derives valuation) (bodyDerives : ofBody.Derives valuation) :
    Derives valuation (.letIn ofBound ofBody) := by
  intro type satisfied vacant typed
  rw [Expr.size] at vacant
  rw [Valuation.satisfies_record_iff, Valuation.satisfies_equate_iff,
    Valuation.satisfies_issue_iff] at satisfied
  have entered := satisfied.1.of_extends ofBody.grown
  rw [Valuation.satisfies_equate_iff, Valuation.satisfies_enter_iff] at entered
  have boundVacant : books.Vacant (node + 1) (node + 1 + bound.size) :=
    vacant.mono (by omega) (by omega)
  have bodyVacant : afterBound.Vacant (node + 1 + bound.size) (node + 1 + bound.size + body.size) :=
    ofBound.vacant (by omega) (vacant.mono (by omega) (by omega))
  have rootVacant : afterBody.Vacant node (node + 1) :=
    ofBody.vacant (by omega) (ofBound.vacant (by omega) (vacant.mono (by omega) (by omega)))
  rcases boundDerives _ entered.1 boundVacant rfl with ⟨boundDerivation, boundNodes, boundBindings⟩
  have bodyDerived := bodyDerives _ satisfied.1 bodyVacant (satisfied.2.symm.trans typed)
  rw [Valuation.context_bind, entered.2] at bodyDerived
  rcases bodyDerived with ⟨bodyDerivation, bodyNodes, bodyBindings⟩
  refine ⟨.letIn boundDerivation bodyDerivation, ?_, ?_⟩
  · rw [valuation.nodeTypes_record (rootVacant.issue.equate _ _ _ _), typed, Derivation.nodeTypes]
    simp only [Valuation.nodeTypes_equate, Valuation.nodeTypes_issue, Valuation.nodeTypes_enter,
      bodyNodes, boundNodes, List.append_assoc]
  · rw [Derivation.bindings]
    simp only [Valuation.bindings_record, Valuation.bindings_equate, Valuation.bindings_issue,
      Valuation.bindings_enter, bodyBindings, boundBindings, entered.2, List.append_assoc]

theorem ite {condition consequent alternate : Expr}
    {afterCondition afterConsequent afterAlternate : Books}
    {conditionTerm consequentTerm alternateTerm : Term}
    {ofCondition : Walked comparison env (node + 1) condition books conditionTerm afterCondition}
    {ofConsequent : Walked comparison env (node + 1 + condition.size) consequent afterCondition
      consequentTerm afterConsequent}
    {ofAlternate : Walked comparison env (node + 1 + condition.size + consequent.size) alternate
      afterConsequent alternateTerm afterAlternate}
    (conditionDerives : ofCondition.Derives valuation)
    (consequentDerives : ofConsequent.Derives valuation)
    (alternateDerives : ofAlternate.Derives valuation) :
    Derives valuation (.ite ofCondition ofConsequent ofAlternate :
      Walked comparison env node (.ite condition consequent alternate place) books _ _) := by
  intro type satisfied vacant typed
  rw [Expr.size] at vacant
  rw [Valuation.satisfies_record_iff, Valuation.satisfies_equate_iff,
    Valuation.satisfies_equate_iff] at satisfied
  rcases satisfied with ⟨⟨alternateSatisfied, tested⟩, joined⟩
  have consequentSatisfied := alternateSatisfied.of_extends ofAlternate.grown
  have conditionSatisfied := consequentSatisfied.of_extends ofConsequent.grown
  have conditionVacant : books.Vacant (node + 1) (node + 1 + condition.size) :=
    vacant.mono (by omega) (by omega)
  have consequentVacant : afterCondition.Vacant (node + 1 + condition.size)
      (node + 1 + condition.size + consequent.size) :=
    ofCondition.vacant (by omega) (vacant.mono (by omega) (by omega))
  have alternateVacant : afterConsequent.Vacant (node + 1 + condition.size + consequent.size)
      (node + 1 + condition.size + consequent.size + alternate.size) :=
    ofConsequent.vacant (by omega)
      (ofCondition.vacant (by omega) (vacant.mono (by omega) (by omega)))
  have rootVacant : afterAlternate.Vacant node (node + 1) :=
    ofAlternate.vacant (by omega) (ofConsequent.vacant (by omega)
      (ofCondition.vacant (by omega) (vacant.mono (by omega) (by omega))))
  rcases conditionDerives _ conditionSatisfied conditionVacant
    (tested.trans (valuation.typeOf_ground .bool)) with
    ⟨conditionDerivation, conditionNodes, conditionBindings⟩
  rcases consequentDerives _ consequentSatisfied consequentVacant typed with
    ⟨consequentDerivation, consequentNodes, consequentBindings⟩
  rcases alternateDerives _ alternateSatisfied alternateVacant (joined.symm.trans typed) with
    ⟨alternateDerivation, alternateNodes, alternateBindings⟩
  refine ⟨.ite conditionDerivation consequentDerivation alternateDerivation, ?_, ?_⟩
  · rw [valuation.nodeTypes_record ((rootVacant.equate _ _ _ _).equate _ _ _ _), typed,
      Derivation.nodeTypes]
    simp only [Valuation.nodeTypes_equate, alternateNodes, consequentNodes, conditionNodes,
      List.append_assoc]
  · rw [Derivation.bindings]
    simp only [Valuation.bindings_record, Valuation.bindings_equate, alternateBindings,
      consequentBindings, conditionBindings, List.append_assoc]

theorem unary {op : UnaryOp} {operand : Expr} {after : Books} {term : Term}
    {ofOperand : Walked comparison env (node + 1) operand books term after}
    (operandDerives : ofOperand.Derives valuation) :
    Derives valuation
      (.unary ofOperand : Walked comparison env node (.unary op operand place) books _ _) := by
  intro type satisfied vacant typed
  rw [Expr.size] at vacant
  rw [Valuation.satisfies_record_iff, Valuation.satisfies_equate_iff,
    valuation.typeOf_ground] at satisfied
  have operandVacant : books.Vacant (node + 1) (node + 1 + operand.size) :=
    vacant.mono (by omega) (by omega)
  have rootVacant : after.Vacant node (node + 1) :=
    ofOperand.vacant (by omega) (vacant.mono (by omega) (by omega))
  rcases operandDerives _ satisfied.1 operandVacant satisfied.2 with ⟨derivation, nodes, bindings⟩
  rw [valuation.typeOf_ground] at typed
  subst typed
  have added := valuation.nodeTypes_record
    (rootVacant.equate term (.ground (Gather.unaryType op)) node ("operand of " ++ op.name))
    (.ground (Gather.unaryType op))
  rw [valuation.typeOf_ground, Valuation.nodeTypes_equate, nodes, List.append_assoc] at added
  cases op with
  | neg => exact ⟨.neg derivation, added, bindings⟩
  | not => exact ⟨.not derivation, added, bindings⟩

/-- The term that the operands share has a type which fits the operator. -/
theorem binary {op : BinaryOp} {left right : Expr} {afterLeft afterRight : Books}
    {leftTerm rightTerm : Term}
    {ofLeft : Walked comparison env (node + 1) left books leftTerm afterLeft}
    {ofRight : Walked comparison env (node + 1 + left.size) right afterLeft rightTerm afterRight}
    (leftDerives : ofLeft.Derives valuation) (rightDerives : ofRight.Derives valuation) :
    Derives valuation
      (.binary ofLeft ofRight : Walked comparison env node (.binary op left right place) books _ _) := by
  intro type satisfied vacant typed
  rw [Expr.size] at vacant
  rw [Valuation.satisfies_record_iff, Valuation.satisfies_equate_iff,
    Valuation.satisfies_equate_iff, Valuation.satisfies_settle_iff] at satisfied
  rcases satisfied with ⟨⟨rightSatisfied, leftShared⟩, rightShared⟩
  have leftSatisfied := rightSatisfied.of_extends ofRight.grown
  have leftVacant : books.Vacant (node + 1) (node + 1 + left.size) :=
    vacant.mono (by omega) (by omega)
  have rightVacant : afterLeft.Vacant (node + 1 + left.size) (node + 1 + left.size + right.size) :=
    ofLeft.vacant (by omega) (vacant.mono (by omega) (by omega))
  have rootVacant : afterRight.Vacant node (node + 1) :=
    ofRight.vacant (by omega) (ofLeft.vacant (by omega) (vacant.mono (by omega) (by omega)))
  rcases leftDerives _ leftSatisfied leftVacant leftShared with
    ⟨leftDerivation, leftNodes, leftBindings⟩
  rcases rightDerives _ rightSatisfied rightVacant rightShared with
    ⟨rightDerivation, rightNodes, rightBindings⟩
  rw [valuation.typeOf_ground] at typed
  have signature : Signature comparison op
      (valuation.typeOf (afterRight.operand comparison op)) type := by
    refine Signature.iff_operandType?.mpr ⟨?_, typed.symm⟩
    intro operandType fixed
    unfold Books.operand
    rw [fixed]
    exact valuation.typeOf_ground operandType
  refine ⟨.binary signature leftDerivation rightDerivation, ?_, ?_⟩
  · rw [valuation.nodeTypes_record (((rootVacant.settle _ _).equate _ _ _ _).equate _ _ _ _),
      valuation.typeOf_ground, typed, Derivation.nodeTypes]
    simp only [Valuation.nodeTypes_equate, Valuation.nodeTypes_settle, rightNodes, leftNodes,
      List.append_assoc]
  · rw [Derivation.bindings]
    simp only [Valuation.bindings_record, Valuation.bindings_equate, Valuation.bindings_settle,
      rightBindings, leftBindings, List.append_assoc]

end Derives

/-- Types that satisfy the equations of a walk make up a derivation. -/
theorem derives {comparison : Comparison} {env : Env Term} {node : Nat} {e : Expr}
    {books after : Books} {term : Term} (walked : Walked comparison env node e books term after)
    (valuation : Valuation) : walked.Derives valuation := by
  induction walked with
  | int => exact Derives.int
  | bool => exact Derives.bool
  | var found => exact Derives.var found
  | letIn _ _ boundDerives bodyDerives => exact Derives.letIn boundDerives bodyDerives
  | ite _ _ _ conditionDerives consequentDerives alternateDerives =>
      exact Derives.ite conditionDerives consequentDerives alternateDerives
  | unary _ operandDerives => exact Derives.unary operandDerives
  | binary _ _ leftDerives rightDerives => exact Derives.binary leftDerives rightDerives

end Walked

end Monotype
