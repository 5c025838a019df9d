import Monotype.Evaluation
import Monotype.Proofs.Inference

namespace Monotype

/-!
# Programs with types do not go wrong

An expression with a derivation evaluates to a value of its type, unless it divides by
zero or, where the comparison rule lets any two operands of one type be ordered, comes
upon a truth value on the left of an ordering.  Under the other rule nothing but a
division by zero is left.
-/

namespace Value

def type : Value -> Ground
  | int _ => .int
  | bool _ => .bool

theorem exists_int {value : Value} (typed : value.type = .int) : exists number, value = .int number := by
  cases value with
  | int number => exact ⟨number, rfl⟩
  | bool truth => cases typed

theorem exists_bool {value : Value} (typed : value.type = .bool) : exists truth, value = .bool truth := by
  cases value with
  | int number => cases typed
  | bool truth => exact ⟨truth, rfl⟩

end Value

/-- The outcomes that an expression of a type may have. -/
inductive Safe (comparison : Comparison) (type : Ground) : Except EvalFault Value -> Prop where
  | value {value : Value} (typed : value.type = type) : Safe comparison type (.ok value)
  | divisionByZero : Safe comparison type (.error .divisionByZero)
  | unordered {op : BinaryOp} (rule : comparison = .same) (member : op ∈ [.lt, .le, .gt, .ge]) :
      Safe comparison type (.error (.notInt (.left op)))

namespace Safe

variable {comparison : Comparison} {type : Ground}

/-- Safe outcomes can be built upon. -/
theorem bind {result : Ground} {outcome : Except EvalFault Value}
    {next : Value -> Except EvalFault Value} (safe : Safe comparison type outcome)
    (nextSafe : forall value, value.type = type -> Safe comparison result (next value)) :
    Safe comparison result (outcome >>= next) := by
  cases safe with
  | value typed => exact nextSafe _ typed
  | divisionByZero => exact divisionByZero
  | unordered rule member => exact unordered rule member

end Safe

namespace Expr

variable {comparison : Comparison}

/-- An operator means what its signature says: it combines truth values, it compares
two values, or it computes from integers.  Only an ordering may be given operands
that it cannot compute from. -/
theorem meaning_cases {op : BinaryOp} {operand result : Ground}
    (signature : Signature comparison op operand result) :
    (exists decisive, meaning op = .logical decisive ∧ operand = .bool ∧ result = .bool) ∨
    (meaning op = .equality ∧ result = .bool) ∨
    (exists compute, meaning op = .numeric compute ∧
      (forall left right, Safe comparison result (compute left right)) ∧
      (operand = .int ∨ comparison = .same ∧ op ∈ [.lt, .le, .gt, .ge])) := by
  cases signature with
  | arithmetic member =>
      simp only [List.mem_cons, List.not_mem_nil, or_false] at member
      refine Or.inr (Or.inr ?_)
      rcases member with rfl | rfl | rfl | rfl
      · exact ⟨_, rfl, fun _ _ => .value rfl, Or.inl rfl⟩
      · exact ⟨_, rfl, fun _ _ => .value rfl, Or.inl rfl⟩
      · exact ⟨_, rfl, fun _ _ => .value rfl, Or.inl rfl⟩
      · refine ⟨_, rfl, ?_, Or.inl rfl⟩
        intro left right
        by_cases zero : right = 0
        · rw [if_pos zero]
          exact .divisionByZero
        · rw [if_neg zero]
          exact .value rfl
  | logical member =>
      simp only [List.mem_cons, List.not_mem_nil, or_false] at member
      rcases member with rfl | rfl
      · exact Or.inl ⟨_, rfl, rfl, rfl⟩
      · exact Or.inl ⟨_, rfl, rfl, rfl⟩
  | equality => exact Or.inr (Or.inl ⟨rfl, rfl⟩)
  | ordering member rule =>
      have operands : operand = .int ∨ comparison = .same ∧ op ∈ [.lt, .le, .gt, .ge] := by
        cases comparison with
        | int => exact Or.inl (rule rfl)
        | same => exact Or.inr ⟨rfl, member⟩
      simp only [List.mem_cons, List.not_mem_nil, or_false] at member
      refine Or.inr (Or.inr ?_)
      rcases member with rfl | rfl | rfl | rfl
      · exact ⟨_, rfl, fun _ _ => .value rfl, operands⟩
      · exact ⟨_, rfl, fun _ _ => .value rfl, operands⟩
      · exact ⟨_, rfl, fun _ _ => .value rfl, operands⟩
      · exact ⟨_, rfl, fun _ _ => .value rfl, operands⟩

theorem compare_safe {left right : Value} (same : left.type = right.type) :
    Safe comparison .bool (compare left right) := by
  cases left with
  | int leftNumber =>
      rcases Value.exists_int same.symm with ⟨rightNumber, rfl⟩
      exact .value rfl
  | bool leftTruth =>
      rcases Value.exists_bool same.symm with ⟨rightTruth, rfl⟩
      exact .value rfl

end Expr

/-- Every name of a context stands for a value of its type. -/
def Env.Fits (env : Env Value) (context : Context) : Prop :=
  forall name type, context name = some type ->
    exists value, env.find? name = some value ∧ value.type = type

theorem Env.fits_empty : Env.Fits [] .empty := by
  intro name type found
  cases found

theorem Env.Fits.bind {env : Env Value} {context : Context} (fits : env.Fits context) (name : Text)
    {value : Value} {type : Ground} (typed : value.type = type) :
    (env.bind name value).Fits (context.bind name type) := by
  intro probe probeType found
  rw [Context.bind] at found
  rw [Env.find?_bind]
  by_cases same : name = probe
  · rw [if_pos same] at found ⊢
    exact ⟨value, rfl, typed.trans (Option.some.inj found)⟩
  · rw [if_neg same] at found ⊢
    exact fits probe probeType found

/-- Evaluation follows the derivation. -/
theorem Derivation.evaluate_safe {comparison : Comparison} {context : Context} {e : Expr} {type : Ground}
    (derivation : Derivation comparison context e type) {env : Env Value} (fits : env.Fits context) :
    Safe comparison type (e.evaluate env) := by
  induction derivation generalizing env with
  | int => exact .value rfl
  | bool => exact .value rfl
  | var found =>
      rcases fits _ _ found with ⟨value, stands, typed⟩
      rw [Expr.evaluate, stands]
      exact .value typed
  | letIn ofBound ofBody boundIh bodyIh =>
      rw [Expr.evaluate]
      exact (boundIh fits).bind (fun value typed => bodyIh (fits.bind _ typed))
  | ite ofCondition ofConsequent ofAlternate conditionIh consequentIh alternateIh =>
      rw [Expr.evaluate]
      refine (conditionIh fits).bind ?_
      intro value typed
      rcases Value.exists_bool typed with ⟨chosen, rfl⟩
      cases chosen with
      | true => exact consequentIh fits
      | false => exact alternateIh fits
  | neg ofOperand ih =>
      rw [Expr.evaluate]
      refine (ih fits).bind ?_
      intro value typed
      rcases Value.exists_int typed with ⟨number, rfl⟩
      exact .value rfl
  | not ofOperand ih =>
      rw [Expr.evaluate]
      refine (ih fits).bind ?_
      intro value typed
      rcases Value.exists_bool typed with ⟨truth, rfl⟩
      exact .value rfl
  | @binary _ op _ _ _ operand result signature ofLeft ofRight leftIh rightIh =>
      rw [Expr.evaluate]
      refine (leftIh fits).bind ?_
      intro leftValue leftTyped
      rcases Expr.meaning_cases signature with
        ⟨decisive, meaning, rfl, rfl⟩ | ⟨meaning, rfl⟩ | ⟨compute, meaning, computes, operands⟩
      · rw [meaning]
        rcases Value.exists_bool leftTyped with ⟨leftTruth, rfl⟩
        change Safe comparison .bool (if leftTruth = decisive then _ else _)
        by_cases decided : leftTruth = decisive
        · rw [if_pos decided]
          exact .value rfl
        · rw [if_neg decided]
          refine (rightIh fits).bind ?_
          intro rightValue rightTyped
          rcases Value.exists_bool rightTyped with ⟨rightTruth, rfl⟩
          exact .value rfl
      · rw [meaning]
        refine (rightIh fits).bind ?_
        intro rightValue rightTyped
        exact Expr.compare_safe (leftTyped.trans rightTyped.symm)
      · rw [meaning]
        refine (rightIh fits).bind ?_
        intro rightValue rightTyped
        cases leftValue with
        | int leftNumber =>
            rcases Value.exists_int (rightTyped.trans leftTyped.symm) with ⟨rightNumber, rfl⟩
            exact computes leftNumber rightNumber
        | bool leftTruth =>
            rcases operands with rfl | ⟨rule, member⟩
            · cases leftTyped
            · exact .unordered rule member

namespace Expr

/-- Evaluation of a program whose inferred type is known is safe, under either
comparison rule. -/
theorem evaluate_safe_of_infer {e : Expr} {comparison : Comparison}
    (wellScoped : e.isWellScoped = true) {inference : Inference}
    (inferred : e.infer comparison = .ok inference) {typing : Typing}
    (succeeded : inference.typing = .ok typing) : Safe comparison typing.type (e.evaluate []) := by
  rcases derivation_of_infer wellScoped inferred succeeded with ⟨derivation⟩
  exact derivation.evaluate_safe Env.fits_empty

/-- If integers only are ordered, a well-scoped program with a type evaluates to a value
of this type or divides by zero. -/
theorem evaluate_of_infer_int (e : Expr) (wellScoped : e.isWellScoped = true) (inference : Inference)
    (inferred : e.infer .int = .ok inference) (typing : Typing)
    (succeeded : inference.typing = .ok typing) :
    (exists value, e.evaluate [] = .ok value ∧ value.type = typing.type) ∨
      (exists fault, e.evaluate [] = .error fault ∧ fault.kind = .divisionByZero) := by
  have safe := evaluate_safe_of_infer wellScoped inferred succeeded
  generalize e.evaluate [] = outcome at safe
  cases safe with
  | value typed => exact Or.inl ⟨_, rfl, typed⟩
  | divisionByZero => exact Or.inr ⟨_, rfl, rfl⟩
  | unordered rule member => cases rule

theorem evaluate_shadowed : shadowed.isWellScoped = true ∧
    exists inference typing, shadowed.infer .int = .ok inference ∧
      inference.typing = .ok typing ∧ typing.type = .int ∧
      ((exists value, shadowed.evaluate [] = .ok value ∧ value.type = typing.type) ∨
        (exists fault, shadowed.evaluate [] = .error fault ∧ fault.kind = .divisionByZero)) := by
  have wellScoped : shadowed.isWellScoped = true := by decide
  refine ⟨wellScoped, ?_⟩
  rcases infer_cases wellScoped .int with
    ⟨inference, inferred, ⟨typing, succeeded, derivation, _⟩ | ⟨_, underivable⟩⟩
  · exact ⟨inference, typing, inferred, succeeded, derivation.type_unique shadowedDerivation,
      evaluate_of_infer_int shadowed wellScoped inference inferred typing succeeded⟩
  · exact ((underivable .int).false shadowedDerivation).elim

end Expr

end Monotype
