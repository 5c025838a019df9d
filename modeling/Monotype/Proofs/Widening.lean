import Monotype.Proofs.Annotation
import Monotype.Proofs.Binders

namespace Monotype

/-!
# A wider rule for comparisons

Orderings of integers are orderings of two operands of one type.  So a derivation under the narrow
rule for comparisons is one under the wide rule, node by node.  The wide rule has inference make up
more unknowns and other equations, and yet what it reads back is the same.
-/

/-- What an operator takes under the narrow rule it takes under every rule. -/
theorem Signature.widen {op : BinaryOp} {operand result : Ground} (signature : Signature .int op operand result)
    (comparison : Comparison) : Signature comparison op operand result := by
  cases signature with
  | arithmetic member => exact .arithmetic member
  | logical member => exact .logical member
  | equality => exact .equality
  | ordering member rule => exact .ordering member (fun _ => rule rfl)

namespace Derivation

/-- A derivation under the narrow rule is one under every rule, with the same types throughout. -/
theorem exists_wider {context : Context} {e : Expr} {type : Ground}
    (derivation : Derivation .int context e type) (comparison : Comparison) :
    exists wider : Derivation comparison context e type, forall node,
      wider.nodeTypes node = derivation.nodeTypes node ∧
      wider.bindings node = derivation.bindings node := by
  induction derivation with
  | int => exact ⟨.int, fun _ => ⟨rfl, rfl⟩⟩
  | bool => exact ⟨.bool, fun _ => ⟨rfl, rfl⟩⟩
  | var found => exact ⟨.var found, fun _ => ⟨rfl, rfl⟩⟩
  | letIn ofBound ofBody boundIh bodyIh =>
      rcases boundIh with ⟨bound, boundSame⟩
      rcases bodyIh with ⟨body, bodySame⟩
      refine ⟨.letIn bound body, fun node => ⟨?_, ?_⟩⟩
      · rw [nodeTypes, nodeTypes, (boundSame _).1, (bodySame _).1]
      · rw [bindings, bindings, (boundSame _).2, (bodySame _).2]
  | ite ofCondition ofConsequent ofAlternate conditionIh consequentIh alternateIh =>
      rcases conditionIh with ⟨condition, conditionSame⟩
      rcases consequentIh with ⟨consequent, consequentSame⟩
      rcases alternateIh with ⟨alternate, alternateSame⟩
      refine ⟨.ite condition consequent alternate, fun node => ⟨?_, ?_⟩⟩
      · rw [nodeTypes, nodeTypes, (conditionSame _).1, (consequentSame _).1, (alternateSame _).1]
      · rw [bindings, bindings, (conditionSame _).2, (consequentSame _).2, (alternateSame _).2]
  | neg ofOperand ih =>
      rcases ih with ⟨operand, same⟩
      refine ⟨.neg operand, fun node => ⟨?_, (same _).2⟩⟩
      rw [nodeTypes, nodeTypes, (same _).1]
  | not ofOperand ih =>
      rcases ih with ⟨operand, same⟩
      refine ⟨.not operand, fun node => ⟨?_, (same _).2⟩⟩
      rw [nodeTypes, nodeTypes, (same _).1]
  | binary signature ofLeft ofRight leftIh rightIh =>
      rcases leftIh with ⟨left, leftSame⟩
      rcases rightIh with ⟨right, rightSame⟩
      refine ⟨.binary (signature.widen comparison) left right, fun node => ⟨?_, ?_⟩⟩
      · rw [nodeTypes, nodeTypes, (leftSame _).1, (rightSame _).1]
      · rw [bindings, bindings, (leftSame _).2, (rightSame _).2]

end Derivation

/-- Binders of the same bindings with the same types are the same. -/
theorem TypedBinder.eq_of_map_eq {first second : List TypedBinder}
    (sameBinders : first.map TypedBinder.toBinder = second.map TypedBinder.toBinder)
    (sameTypes : first.map TypedBinder.type = second.map TypedBinder.type) : first = second := by
  induction first generalizing second with
  | nil => exact (List.map_eq_nil_iff.mp sameBinders.symm).symm
  | cons binder rest ih =>
      rcases List.map_eq_cons_iff.mp sameBinders.symm with ⟨other, others, rfl, sameBinder, later⟩
      rcases List.cons.inj sameTypes with ⟨sameType, laterTypes⟩
      rw [ih later.symm laterTypes]
      rcases binder with ⟨binder, type⟩
      rcases other with ⟨other, otherType⟩
      cases sameBinder
      cases sameType
      rfl

namespace Expr

variable {e : Expr}

/-- The binders depend on the rule for comparisons through their types alone. -/
theorem binders_eq_of_reports (wellScoped : e.isWellScoped = true) {comparison other : Comparison}
    {inference inference' : Inference} (inferred : e.infer comparison = .ok inference)
    (inferred' : e.infer other = .ok inference') {typing typing' : Typing}
    (succeeded : inference.typing = .ok typing) (succeeded' : inference'.typing = .ok typing')
    {derivation : Derivation comparison .empty e typing.type}
    {derivation' : Derivation other .empty e typing'.type} (reports : typing.Reports derivation)
    (reports' : typing'.Reports derivation')
    (same : derivation'.bindings 0 = derivation.bindings 0) : typing'.binders = typing.binders := by
  apply TypedBinder.eq_of_map_eq
  · rw [Inference.binders_eq wellScoped inferred succeeded,
      Inference.binders_eq wellScoped inferred' succeeded']
  · have triples := (reports'.bindings_eq.trans same).trans reports.bindings_eq.symm
    have types := congrArg (List.map (fun triple : Text × Nat × Ground => triple.2.2)) triples
    rwa [List.map_map, List.map_map] at types

/-- What has types under the narrow rule for comparisons has the same types under the wide rule: the
same type of the program, the same type at every node and the same binders in the same order. -/
theorem infer_same_of_infer_int (e : Expr) (wellScoped : e.isWellScoped = true) (inference : Inference)
    (inferred : e.infer .int = .ok inference) (typing : Typing)
    (succeeded : inference.typing = .ok typing) :
    exists wider typing', e.infer .same = .ok wider ∧ wider.typing = .ok typing' ∧
      typing'.type = typing.type ∧ typing'.nodeTypes = typing.nodeTypes ∧
      typing.nodeTypes.keys.Perm (List.range e.size) ∧
      typing'.binders = typing.binders := by
  rcases infer_cases wellScoped .int with ⟨_, again, outcome⟩
  cases inferred.symm.trans again
  rcases outcome with ⟨_, ok, derivation, reports⟩ | ⟨⟨fault, failed⟩, _⟩
  · cases succeeded.symm.trans ok
    rcases derivation.exists_wider .same with ⟨expected, same⟩
    rcases infer_cases wellScoped .same with ⟨wider, inferred', outcome'⟩
    rcases outcome' with ⟨⟨type', terms', nodeTypes', binders'⟩, succeeded', derivation', reports'⟩ |
      ⟨_, underivable⟩
    · rcases expected.type_unique derivation' with rfl
      rcases derivation'.eq_of_type_eq expected with rfl
      have sameBinders := binders_eq_of_reports wellScoped inferred inferred' succeeded succeeded'
        reports reports' (same 0).2
      have nodes : nodeTypes'.entries = typing.nodeTypes.entries :=
        (reports'.nodeTypes_eq.trans (same 0).1).trans reports.nodeTypes_eq.symm
      refine ⟨wider, _, inferred', succeeded', rfl, congrArg Table.mk nodes, ?_, sameBinders⟩
      rw [List.range_eq_range', Table.keys, reports.nodeTypes_eq]
      exact derivation.nodes_perm 0
    · exact ((underivable _).false expected).elim
  · cases succeeded.symm.trans failed

/-- Orderings at the bound expression and in the body, below two binders of one name. -/
def ordered : Expr :=
  .letIn "x" (.binary .lt (.int 1 none) (.int 2 none) none)
    (.letIn "x" (.ite (.var "x" none) (.int 3 none) (.int 4 none) none)
      (.binary .ge (.var "x" none) (.int 0 none) none) none) none

/-- The runs under the two rules end with equations between different unknowns. -/
theorem infer_same_of_infer_int_ordered : ordered.isWellScoped = true ∧
    exists inference typing wider typing',
      ordered.infer .int = .ok inference ∧ inference.typing = .ok typing ∧
      ordered.infer .same = .ok wider ∧ wider.typing = .ok typing' ∧
      inference.constraints.getLast?.map Constraint.toEquation = some ⟨.numbered 2, .numbered 1⟩ ∧
      wider.constraints.getLast?.map Constraint.toEquation = some ⟨.numbered 4, .numbered 3⟩ ∧
      typing'.type = typing.type ∧ typing'.nodeTypes = typing.nodeTypes ∧
      typing.nodeTypes.keys.Perm (List.range 12) ∧ typing'.binders = typing.binders := by
  have wellScoped : ordered.isWellScoped = true := by decide
  rcases Source.exists_of_computed ordered .int
    (fun inference _ => inference.constraints.getLast?.map Constraint.toEquation)
    (some ⟨.numbered 2, .numbered 1⟩) (by decide +kernel) with
    ⟨inference, typing, inferred, succeeded, last⟩
  rcases Source.exists_of_computed ordered .same
    (fun inference _ => inference.constraints.getLast?.map Constraint.toEquation)
    (some ⟨.numbered 4, .numbered 3⟩) (by decide +kernel) with ⟨_, _, again, _, last'⟩
  rcases infer_same_of_infer_int ordered wellScoped inference inferred typing succeeded with
    ⟨wider, typing', inferred', succeeded', sameType, sameNodes, nodes, sameBinders⟩
  cases inferred'.symm.trans again
  exact ⟨wellScoped, inference, typing, _, typing', inferred, succeeded, inferred', succeeded',
    last, last', sameType, sameNodes, nodes, sameBinders⟩

end Expr

end Monotype
