import Monotype.Evaluation
import Monotype.Proofs.Inference
import Mathlib.Data.List.Forall2

namespace Monotype

/-!
# Names of binders do not matter

Two expressions are variants of each other if they differ in the names of their bindings only: each
use of a name refers to the same binding in both, or is free and the same name in both.  The bindings
around an expression and its variant are listed in pairs, the innermost first.  Nothing is asked of
the names themselves, so a variant may hide a name that the other expression does not hide, or use
one name where the other uses two.

What the two names of a pair stand for is the same on both sides.  This is all that derivations and
evaluation know of names, so variants have the same types at the same nodes and the same value.
-/

/-- Names that refer to the same binding on both sides, or to none and are equal. -/
def Paired : List (Text × Text) -> (first second : Text) -> Prop
  | [], first, second => first = second
  | (a, b) :: outer, first, second =>
      (first = a ∧ second = b) ∨ (first ≠ a ∧ second ≠ b ∧ Paired outer first second)

namespace Paired

variable {pairs : List (Text × Text)} {first second : Text}

theorem symm (paired : Paired pairs first second) : Paired (pairs.map Prod.swap) second first := by
  induction pairs with
  | nil => exact Eq.symm paired
  | cons pair outer ih =>
      rcases paired with ⟨isFirst, isSecond⟩ | ⟨notFirst, notSecond, further⟩
      · exact Or.inl ⟨isSecond, isFirst⟩
      · exact Or.inr ⟨notSecond, notFirst, ih further⟩

/-- Names in the scope of a pair of bindings refer to them, or else have the same relation without
them. -/
theorem outside {a b : Text} (paired : Paired ((a, b) :: pairs) first second) :
    (a = first ↔ b = second) ∧ (a ≠ first -> Paired pairs first second) := by
  rcases paired with ⟨rfl, rfl⟩ | ⟨notFirst, notSecond, further⟩
  · exact ⟨iff_of_true rfl rfl, fun different => absurd rfl different⟩
  · exact ⟨iff_of_false (Ne.symm notFirst) (Ne.symm notSecond), fun _ => further⟩

/-- Among names inside a pair of bindings, those that refer to others are paired without it. -/
theorem filter_ne {a b : Text} {names names' : List Text}
    (paired : List.Forall₂ (Paired ((a, b) :: pairs)) names names') :
    List.Forall₂ (Paired pairs) (names.filter (fun other => other ≠ a))
      (names'.filter (fun other => other ≠ b)) := by
  induction paired with
  | nil => exact .nil
  | @cons name name' _ _ head tail ih =>
      rcases head with ⟨isFirst, isSecond⟩ | ⟨notFirst, notSecond, further⟩
      · rwa [List.filter_cons_of_neg (by simp [isFirst]), List.filter_cons_of_neg (by simp [isSecond])]
      · rw [List.filter_cons_of_pos (by simp [notFirst]), List.filter_cons_of_pos (by simp [notSecond])]
        exact .cons further ih

/-- What paired names stand for is the same, and names that stand for nothing are equal. -/
def Agree {V : Type} (pairs : List (Text × Text)) (first second : Text -> Option V) : Prop :=
  forall a b, Paired pairs a b -> first a = second b ∧ (first a = none -> a = b)

theorem agree_self {V : Type} (find : Text -> Option V) : Agree [] find find := by
  rintro a b rfl
  exact ⟨rfl, fun _ => rfl⟩

/-- Inside a pair of bindings of one value. -/
theorem Agree.bind {V : Type} {find find' inner inner' : Text -> Option V}
    (agree : Agree pairs find find') {a b : Text} {value : V}
    (inner_eq : forall probe, inner probe = if a = probe then some value else find probe)
    (inner_eq' : forall probe, inner' probe = if b = probe then some value else find' probe) :
    Agree ((a, b) :: pairs) inner inner' := by
  intro x y paired
  rcases paired.outside with ⟨same, further⟩
  rw [inner_eq, inner_eq']
  by_cases isBound : a = x
  · rw [if_pos isBound, if_pos (same.mp isBound)]
    exact ⟨rfl, fun absent => by cases absent⟩
  · rw [if_neg isBound, if_neg (mt same.mpr isBound)]
    exact agree x y (further isBound)

end Paired

namespace Expr

/-- Expressions that differ in the names of their bindings only, inside bindings with the paired
names. -/
inductive Variant : List (Text × Text) -> Expr -> Expr -> Prop where
  | int {pairs : List (Text × Text)} {value : Int} {place place' : Option Position} :
      Variant pairs (.int value place) (.int value place')
  | bool {pairs : List (Text × Text)} {value : Bool} {place place' : Option Position} :
      Variant pairs (.bool value place) (.bool value place')
  | var {pairs : List (Text × Text)} {name name' : Text} {place place' : Option Position}
      (paired : Paired pairs name name') : Variant pairs (.var name place) (.var name' place')
  | letIn {pairs : List (Text × Text)} {name name' : Text} {bound body bound' body' : Expr}
      {place place' : Option Position} (ofBound : Variant pairs bound bound')
      (ofBody : Variant ((name, name') :: pairs) body body') :
      Variant pairs (.letIn name bound body place) (.letIn name' bound' body' place')
  | ite {pairs : List (Text × Text)} {condition consequent alternate : Expr}
      {condition' consequent' alternate' : Expr} {place place' : Option Position}
      (ofCondition : Variant pairs condition condition')
      (ofConsequent : Variant pairs consequent consequent')
      (ofAlternate : Variant pairs alternate alternate') :
      Variant pairs (.ite condition consequent alternate place)
        (.ite condition' consequent' alternate' place')
  | unary {pairs : List (Text × Text)} {op : UnaryOp} {operand operand' : Expr}
      {place place' : Option Position} (ofOperand : Variant pairs operand operand') :
      Variant pairs (.unary op operand place) (.unary op operand' place')
  | binary {pairs : List (Text × Text)} {op : BinaryOp} {left right left' right' : Expr}
      {place place' : Option Position} (ofLeft : Variant pairs left left')
      (ofRight : Variant pairs right right') :
      Variant pairs (.binary op left right place) (.binary op left' right' place')

namespace Variant

variable {pairs : List (Text × Text)} {first second : Expr}

theorem symm (variant : Variant pairs first second) :
    Variant (pairs.map Prod.swap) second first := by
  induction variant with
  | int => exact .int
  | bool => exact .bool
  | var paired => exact .var paired.symm
  | letIn ofBound ofBody boundIh bodyIh => exact .letIn boundIh bodyIh
  | ite ofCondition ofConsequent ofAlternate conditionIh consequentIh alternateIh =>
      exact .ite conditionIh consequentIh alternateIh
  | unary ofOperand ih => exact .unary ih
  | binary ofLeft ofRight leftIh rightIh => exact .binary leftIh rightIh

theorem size_eq (variant : Variant pairs first second) : first.size = second.size := by
  induction variant with
  | int => rfl
  | bool => rfl
  | var paired => rfl
  | letIn ofBound ofBody boundIh bodyIh => rw [size, size, boundIh, bodyIh]
  | ite ofCondition ofConsequent ofAlternate conditionIh consequentIh alternateIh =>
      rw [size, size, conditionIh, consequentIh, alternateIh]
  | unary ofOperand ih => rw [size, size, ih]
  | binary ofLeft ofRight leftIh rightIh => rw [size, size, leftIh, rightIh]

/-! ## Free names -/

/-- The free names of a variant are those that the free names are paired with, in order. -/
theorem free_paired (variant : Variant pairs first second) :
    List.Forall₂ (Paired pairs) first.free second.free := by
  induction variant with
  | int => exact .nil
  | bool => exact .nil
  | var paired => exact .cons paired .nil
  | letIn ofBound ofBody boundIh bodyIh => exact List.rel_append boundIh (Paired.filter_ne bodyIh)
  | ite ofCondition ofConsequent ofAlternate conditionIh consequentIh alternateIh =>
      exact List.rel_append (List.rel_append conditionIh consequentIh) alternateIh
  | unary ofOperand ih => exact ih
  | binary ofLeft ofRight leftIh rightIh => exact List.rel_append leftIh rightIh

theorem free_eq (variant : Variant [] first second) : first.free = second.free :=
  List.forall₂_eq_eq_eq ▸ variant.free_paired

theorem isWellScoped_eq (variant : Variant [] first second) :
    first.isWellScoped = second.isWellScoped := by
  rw [Bool.eq_iff_iff, isWellScoped_iff, isWellScoped_iff, variant.free_eq]

/-! ## Types -/

/-- A derivation for an expression is one for its variants, up to the names of its bindings. -/
theorem exists_derivation (variant : Variant pairs first second) {comparison : Comparison}
    {context context' : Context} (agree : Paired.Agree pairs context context') {type : Ground}
    (derivation : Derivation comparison context first type) :
    exists other : Derivation comparison context' second type, forall node,
      other.nodeTypes node = derivation.nodeTypes node ∧
      (other.bindings node).map Prod.snd = (derivation.bindings node).map Prod.snd := by
  induction variant generalizing context context' type with
  | int =>
      cases derivation
      exact ⟨.int, fun _ => ⟨rfl, rfl⟩⟩
  | bool =>
      cases derivation
      exact ⟨.bool, fun _ => ⟨rfl, rfl⟩⟩
  | var paired =>
      cases derivation with
      | var found =>
          rw [(agree _ _ paired).1] at found
          exact ⟨.var found, fun _ => ⟨rfl, rfl⟩⟩
  | @letIn pairs name name' _ _ _ _ _ _ ofBound ofBody boundIh bodyIh =>
      cases derivation with
      | @letIn _ _ _ _ _ boundType _ boundDerivation bodyDerivation =>
          have inBody : Paired.Agree ((name, name') :: pairs) (context.bind name boundType)
              (context'.bind name' boundType) := agree.bind (fun _ => rfl) (fun _ => rfl)
          rcases boundIh agree boundDerivation with ⟨bound, boundSame⟩
          rcases bodyIh inBody bodyDerivation with ⟨body, bodySame⟩
          refine ⟨.letIn bound body, fun node => ⟨?_, ?_⟩⟩
          · rw [Derivation.nodeTypes, Derivation.nodeTypes, (boundSame _).1, ofBound.size_eq,
              (bodySame _).1]
          · simp only [Derivation.bindings, List.map_append, (boundSame _).2, ofBound.size_eq,
              (bodySame _).2, List.map_cons, List.map_nil]
  | ite ofCondition ofConsequent ofAlternate conditionIh consequentIh alternateIh =>
      cases derivation with
      | ite conditionDerivation consequentDerivation alternateDerivation =>
          rcases conditionIh agree conditionDerivation with ⟨condition, conditionSame⟩
          rcases consequentIh agree consequentDerivation with ⟨consequent, consequentSame⟩
          rcases alternateIh agree alternateDerivation with ⟨alternate, alternateSame⟩
          refine ⟨.ite condition consequent alternate, fun node => ⟨?_, ?_⟩⟩
          · rw [Derivation.nodeTypes, Derivation.nodeTypes, (conditionSame _).1, ofCondition.size_eq,
              (consequentSame _).1, ofConsequent.size_eq, (alternateSame _).1]
          · simp only [Derivation.bindings, List.map_append, (conditionSame _).2, ofCondition.size_eq,
              (consequentSame _).2, ofConsequent.size_eq, (alternateSame _).2]
  | unary ofOperand ih =>
      cases derivation with
      | neg operandDerivation =>
          rcases ih agree operandDerivation with ⟨operand, same⟩
          refine ⟨.neg operand, fun node => ⟨?_, (same _).2⟩⟩
          rw [Derivation.nodeTypes, Derivation.nodeTypes, (same _).1]
      | not operandDerivation =>
          rcases ih agree operandDerivation with ⟨operand, same⟩
          refine ⟨.not operand, fun node => ⟨?_, (same _).2⟩⟩
          rw [Derivation.nodeTypes, Derivation.nodeTypes, (same _).1]
  | binary ofLeft ofRight leftIh rightIh =>
      cases derivation with
      | binary signature leftDerivation rightDerivation =>
          rcases leftIh agree leftDerivation with ⟨left, leftSame⟩
          rcases rightIh agree rightDerivation with ⟨right, rightSame⟩
          refine ⟨.binary signature left right, fun node => ⟨?_, ?_⟩⟩
          · rw [Derivation.nodeTypes, Derivation.nodeTypes, (leftSame _).1, ofLeft.size_eq,
              (rightSame _).1]
          · simp only [Derivation.bindings, List.map_append, (leftSame _).2, ofLeft.size_eq,
              (rightSame _).2]

/-! ## Values -/

theorem evaluate_eq (variant : Variant pairs first second) {env env' : Env Value}
    (agree : Paired.Agree pairs env.find? env'.find?) : first.evaluate env = second.evaluate env' := by
  induction variant generalizing env env' with
  | int => rfl
  | bool => rfl
  | @var _ name name' _ _ paired =>
      rcases agree name name' paired with ⟨same, absent⟩
      rw [evaluate, evaluate, ← same]
      cases found : env.find? name with
      | some value => rfl
      | none => rw [absent found]
  | letIn ofBound ofBody boundIh bodyIh =>
      rw [evaluate, evaluate, boundIh agree]
      congr 1
      funext value
      exact bodyIh (agree.bind (fun probe => env.find?_bind _ probe value)
        (fun probe => env'.find?_bind _ probe value))
  | ite ofCondition ofConsequent ofAlternate conditionIh consequentIh alternateIh =>
      simp only [evaluate, conditionIh agree, consequentIh agree, alternateIh agree]
  | @unary _ op _ _ _ _ ofOperand ih =>
      cases op <;> simp only [evaluate, ih agree]
  | binary ofLeft ofRight leftIh rightIh =>
      simp only [evaluate, leftIh agree, rightIh agree]

/-! ## Inference -/

/-- The types that are reported for a program and for a variant of it. -/
theorem reports_eq (variant : Variant [] first second) {comparison : Comparison} {typing typing' : Typing}
    {derivation : Derivation comparison .empty first typing.type}
    {derivation' : Derivation comparison .empty second typing'.type} (reports : typing.Reports derivation)
    (reports' : typing'.Reports derivation') :
    typing.type = typing'.type ∧ typing.nodeTypes.entries = typing'.nodeTypes.entries ∧
      typing.binders.map (fun binder => (binder.node, binder.type)) =
        typing'.binders.map (fun binder => (binder.node, binder.type)) := by
  rcases variant.exists_derivation (Paired.agree_self Context.empty) derivation with ⟨other, same⟩
  rcases typing' with ⟨type', terms', nodeTypes', binders'⟩
  rcases other.type_unique derivation' with rfl
  rcases derivation'.eq_of_type_eq other with rfl
  have bindings := congrArg (List.map Prod.snd) reports.bindings_eq
  have bindings' := congrArg (List.map Prod.snd) reports'.bindings_eq
  rw [List.map_map] at bindings bindings'
  refine ⟨rfl, ?_, ?_⟩
  · rw [reports.nodeTypes_eq, reports'.nodeTypes_eq, (same 0).1]
  · exact bindings.trans ((same 0).2.symm.trans bindings'.symm)

theorem underivable (variant : Variant [] first second) {comparison : Comparison}
    (none : forall type, IsEmpty (Derivation comparison .empty first type)) (type : Ground) :
    IsEmpty (Derivation comparison .empty second type) := by
  refine ⟨fun derivation => ?_⟩
  rcases variant.symm.exists_derivation (Paired.agree_self Context.empty) derivation with ⟨other, _⟩
  exact (none type).false other

end Variant

/-- A program and a variant of it have types under the same rules.  They then have the same type, the
same types at the same nodes and the same types of their bindings, in order.  They have the same
value or the same fault. -/
theorem same_of_variant (first second : Expr) (variant : Variant [] first second)
    (wellScoped : first.isWellScoped = true) :
    (forall comparison, exists inference inference',
      first.infer comparison = .ok inference ∧ second.infer comparison = .ok inference' ∧
      ((exists typing, inference.typing = .ok typing) ↔
        exists typing', inference'.typing = .ok typing') ∧
      forall typing typing', inference.typing = .ok typing -> inference'.typing = .ok typing' ->
        typing.type = typing'.type ∧ typing.nodeTypes.entries = typing'.nodeTypes.entries ∧
        typing.binders.map (fun binder => (binder.node, binder.type)) =
          typing'.binders.map (fun binder => (binder.node, binder.type))) ∧
    forall env, first.evaluate env = second.evaluate env := by
  refine ⟨?_, fun env => variant.evaluate_eq (Paired.agree_self env.find?)⟩
  intro comparison
  rcases infer_cases wellScoped comparison with ⟨inference, inferred, outcome⟩
  rcases infer_cases (variant.isWellScoped_eq ▸ wellScoped) comparison with
    ⟨inference', inferred', outcome'⟩
  refine ⟨inference, inference', inferred, inferred', ?_⟩
  rcases outcome with ⟨typing, succeeded, derivation, reports⟩ | ⟨⟨fault, failed⟩, none⟩
  · rcases outcome' with ⟨typing', succeeded', derivation', reports'⟩ | ⟨_, none'⟩
    · rw [succeeded, succeeded']
      refine ⟨iff_of_true ⟨typing, rfl⟩ ⟨typing', rfl⟩, ?_⟩
      intro _ _ ok ok'
      cases ok
      cases ok'
      exact variant.reports_eq reports reports'
    · exact ((variant.symm.underivable none' _).false derivation).elim
  · rcases outcome' with ⟨typing', succeeded', derivation', reports'⟩ | ⟨⟨fault', failed'⟩, _⟩
    · exact ((variant.underivable none _).false derivation').elim
    · rw [failed, failed']
      refine ⟨iff_of_false (fun ⟨_, ok⟩ => by cases ok) (fun ⟨_, ok⟩ => by cases ok), ?_⟩
      intro _ _ ok
      cases ok

/-- A variant of `shadowed` in which nothing is hidden. -/
def unshadowed : Expr :=
  letIn "x" (int 0 none)
    (letIn "y" (binary .eql (var "x" none) (int 0 none) none)
      (ite (binary .or (var "y" none)
          (binary .lt (binary .div (int 1 none) (int 0 none) none) (int 1 none) none) none)
        (int 2 none) (int 3 none) none) none) none

theorem same_of_shadowed : Variant [] shadowed unshadowed ∧ shadowed.isWellScoped = true ∧
    shadowed.evaluate [] = unshadowed.evaluate [] ∧
    exists inference typing, unshadowed.infer .int = .ok inference ∧ inference.typing = .ok typing ∧
      typing.type = .int := by
  have variant : Variant [] shadowed unshadowed :=
    .letIn .int (.letIn (.binary (.var (Or.inl ⟨rfl, rfl⟩)) .int)
      (.ite (.binary (.var (Or.inl ⟨rfl, rfl⟩)) (.binary (.binary .int .int) .int)) .int .int))
  have wellScoped : shadowed.isWellScoped = true := by decide
  rcases same_of_variant shadowed unshadowed variant wellScoped with ⟨types, values⟩
  rcases types .int with ⟨inference, inference', inferred, inferred', succeeds, same⟩
  refine ⟨variant, wellScoped, values [], ?_⟩
  rcases infer_cases wellScoped .int with ⟨_, again, ⟨typing, succeeded, derivation, _⟩ | ⟨_, none⟩⟩
  · cases inferred.symm.trans again
    rcases succeeds.mp ⟨typing, succeeded⟩ with ⟨typing', succeeded'⟩
    refine ⟨inference', typing', inferred', succeeded', ?_⟩
    rw [← (same typing typing' succeeded succeeded').1]
    exact derivation.type_unique shadowedDerivation
  · exact ((none .int).false shadowedDerivation).elim

end Expr

end Monotype
