import Mathlib.Logic.Relation
import Monotype.Proofs.Safety

namespace Monotype

/-!
# What evaluation comes upon

Evaluation of an expression evaluates some of its parts, each in an environment of its own.  The
fault of a part is the fault of the whole, and a fault can be traced back to the part that raised it.
So where any two operands of one type may be ordered, a program with a type goes wrong, other than
by a division by zero, exactly if its evaluation comes upon an ordering of two truth values.
-/

namespace Expr

/-- Evaluation of the first expression in its environment calls for evaluation of the second one in
its own. -/
inductive Calls : Env Value × Expr -> Env Value × Expr -> Prop where
  | bound {env : Env Value} {name : Text} {bound body : Expr} {place : Option Position} :
      Calls (env, letIn name bound body place) (env, bound)
  | body {env : Env Value} {name : Text} {bound body : Expr} {place : Option Position} {value : Value}
      (ran : bound.evaluate env = .ok value) :
      Calls (env, letIn name bound body place) (env.bind name value, body)
  | condition {env : Env Value} {condition consequent alternate : Expr} {place : Option Position} :
      Calls (env, ite condition consequent alternate place) (env, condition)
  | consequent {env : Env Value} {condition consequent alternate : Expr} {place : Option Position}
      (ran : condition.evaluate env = .ok (.bool true)) :
      Calls (env, ite condition consequent alternate place) (env, consequent)
  | alternate {env : Env Value} {condition consequent alternate : Expr} {place : Option Position}
      (ran : condition.evaluate env = .ok (.bool false)) :
      Calls (env, ite condition consequent alternate place) (env, alternate)
  | operand {env : Env Value} {op : UnaryOp} {operand : Expr} {place : Option Position} :
      Calls (env, unary op operand place) (env, operand)
  | left {env : Env Value} {op : BinaryOp} {left right : Expr} {place : Option Position} :
      Calls (env, binary op left right place) (env, left)
  | right {env : Env Value} {op : BinaryOp} {left right : Expr} {place : Option Position} {value : Value}
      (ran : left.evaluate env = .ok value)
      (undecided : forall decisive, meaning op = .logical decisive -> value = .bool (!decisive)) :
      Calls (env, binary op left right place) (env, right)

/-- Evaluation of the first expression comes upon the second one. -/
abbrev Reaches : Env Value × Expr -> Env Value × Expr -> Prop :=
  Relation.ReflTransGen Calls

namespace Calls

variable {caller callee : Env Value × Expr}

theorem size_lt (calls : Calls caller callee) : callee.2.size < caller.2.size := by
  cases calls <;> simp only [size] <;> omega

/-- What goes wrong in a part goes wrong in the whole. -/
theorem evaluate_eq_error (calls : Calls caller callee) {fault : EvalFault}
    (failed : callee.2.evaluate callee.1 = .error fault) : caller.2.evaluate caller.1 = .error fault := by
  cases calls with
  | bound =>
      rw [evaluate, failed]
      rfl
  | body ran =>
      rw [evaluate, ran]
      exact failed
  | condition =>
      rw [evaluate, failed]
      rfl
  | consequent ran =>
      rw [evaluate, ran]
      exact failed
  | alternate ran =>
      rw [evaluate, ran]
      exact failed
  | @operand _ op =>
      cases op with
      | neg =>
          rw [evaluate, failed]
          rfl
      | not =>
          rw [evaluate, failed]
          rfl
  | left =>
      rw [evaluate, failed]
      rfl
  | @right _ op _ _ _ _ ran undecided =>
      rw [evaluate, ran]
      cases meant : meaning op with
      | logical decisive =>
          rw [undecided decisive meant, failed]
          cases decisive <;> rfl
      | equality =>
          rw [failed]
          rfl
      | numeric compute =>
          rw [failed]
          rfl

end Calls

theorem Reaches.evaluate_eq_error {caller callee : Env Value × Expr} (reaches : Reaches caller callee)
    {fault : EvalFault} (failed : callee.2.evaluate callee.1 = .error fault) :
    caller.2.evaluate caller.1 = .error fault := by
  induction reaches using Relation.ReflTransGen.head_induction_on with
  | refl => exact failed
  | head calls _ ih => exact calls.evaluate_eq_error ih

/-! ## Types of the parts -/

/-- The expression has a type in a context that its environment fits. -/
def Typed (comparison : Comparison) (call : Env Value × Expr) : Prop :=
  exists context type, call.1.Fits context ∧ Nonempty (Derivation comparison context call.2 type)

theorem Calls.typed {comparison : Comparison} {caller callee : Env Value × Expr}
    (calls : Calls caller callee) (typed : Typed comparison caller) : Typed comparison callee := by
  rcases typed with ⟨context, type, fits, ⟨derivation⟩⟩
  cases calls with
  | bound =>
      cases derivation with
      | letIn ofBound ofBody => exact ⟨_, _, fits, ⟨ofBound⟩⟩
  | body ran =>
      cases derivation with
      | letIn ofBound ofBody =>
          have safe := ofBound.evaluate_safe fits
          rw [ran] at safe
          cases safe with
          | value valueTyped => exact ⟨_, _, fits.bind _ valueTyped, ⟨ofBody⟩⟩
  | condition =>
      cases derivation with
      | ite ofCondition ofConsequent ofAlternate => exact ⟨_, _, fits, ⟨ofCondition⟩⟩
  | consequent ran =>
      cases derivation with
      | ite ofCondition ofConsequent ofAlternate => exact ⟨_, _, fits, ⟨ofConsequent⟩⟩
  | alternate ran =>
      cases derivation with
      | ite ofCondition ofConsequent ofAlternate => exact ⟨_, _, fits, ⟨ofAlternate⟩⟩
  | operand =>
      cases derivation with
      | neg ofOperand => exact ⟨_, _, fits, ⟨ofOperand⟩⟩
      | not ofOperand => exact ⟨_, _, fits, ⟨ofOperand⟩⟩
  | left =>
      cases derivation with
      | binary signature ofLeft ofRight => exact ⟨_, _, fits, ⟨ofLeft⟩⟩
  | right ran undecided =>
      cases derivation with
      | binary signature ofLeft ofRight => exact ⟨_, _, fits, ⟨ofRight⟩⟩

theorem Reaches.typed {comparison : Comparison} {caller callee : Env Value × Expr}
    (reaches : Reaches caller callee) (typed : Typed comparison caller) : Typed comparison callee := by
  induction reaches with
  | refl => exact typed
  | tail _ calls ih => exact calls.typed ih

/-- The operands of a typed operator have values of one type. -/
theorem Typed.operands {comparison : Comparison} {env : Env Value} {op : BinaryOp} {left right : Expr}
    {place : Option Position} (typed : Typed comparison (env, binary op left right place))
    {leftValue rightValue : Value} (ranLeft : left.evaluate env = .ok leftValue)
    (ranRight : right.evaluate env = .ok rightValue) : leftValue.type = rightValue.type := by
  rcases typed with ⟨context, type, fits, ⟨derivation⟩⟩
  cases derivation with
  | binary signature ofLeft ofRight =>
      have leftSafe := ofLeft.evaluate_safe fits
      have rightSafe := ofRight.evaluate_safe fits
      rw [ranLeft] at leftSafe
      rw [ranRight] at rightSafe
      cases leftSafe with
      | value leftTyped =>
          cases rightSafe with
          | value rightTyped => exact leftTyped.trans rightTyped.symm

/-! ## Where a fault comes from -/

theorem bind_eq_error {A B : Type} {first : Except EvalFault A} {next : A -> Except EvalFault B}
    {fault : EvalFault} (failed : first >>= next = .error fault) :
    first = .error fault ∨ exists value, first = .ok value ∧ next value = .error fault := by
  cases first with
  | error other =>
      cases failed
      exact Or.inl rfl
  | ok value => exact Or.inr ⟨value, rfl, failed⟩

/-- Numbers can go wrong only by a division. -/
theorem numeric_fault {op : BinaryOp} {compute : Int -> Int -> Except EvalFault Value}
    (meant : meaning op = .numeric compute) {left right : Int} {fault : EvalFault}
    (failed : compute left right = .error fault) : fault = .divisionByZero := by
  cases op <;> cases meant
  case div =>
    beta_reduce at failed
    by_cases zero : right = 0
    · rw [if_pos zero] at failed
      exact (Except.error.inj failed).symm
    · rw [if_neg zero] at failed
      cases failed
  all_goals cases failed

/-- The expression has a fault of its own: a name stands for nothing, or a part that has been evaluated
has a value of the wrong type, or a divisor is zero. -/
inductive Raises : Env Value × Expr -> EvalFault -> Prop where
  | name {env : Env Value} {name : Text} {place : Option Position} (absent : env.find? name = none) :
      Raises (env, var name place) (.undefinedName name)
  | condition {env : Env Value} {condition consequent alternate : Expr} {place : Option Position}
      {number : Int} (ran : condition.evaluate env = .ok (.int number)) :
      Raises (env, ite condition consequent alternate place) (.notBool .condition)
  | negation {env : Env Value} {operand : Expr} {place : Option Position} {truth : Bool}
      (ran : operand.evaluate env = .ok (.bool truth)) :
      Raises (env, unary .neg operand place) (.notInt (.operand .neg))
  | complement {env : Env Value} {operand : Expr} {place : Option Position} {number : Int}
      (ran : operand.evaluate env = .ok (.int number)) :
      Raises (env, unary .not operand place) (.notBool (.operand .not))
  | leftTruth {env : Env Value} {op : BinaryOp} {left right : Expr} {place : Option Position}
      {decisive : Bool} {number : Int} (meant : meaning op = .logical decisive)
      (ranLeft : left.evaluate env = .ok (.int number)) :
      Raises (env, binary op left right place) (.notBool (.left op))
  | rightTruth {env : Env Value} {op : BinaryOp} {left right : Expr} {place : Option Position}
      {decisive : Bool} {number : Int} (meant : meaning op = .logical decisive)
      (ranLeft : left.evaluate env = .ok (.bool (!decisive)))
      (ranRight : right.evaluate env = .ok (.int number)) :
      Raises (env, binary op left right place) (.notBool (.right op))
  | mixed {env : Env Value} {op : BinaryOp} {left right : Expr} {place : Option Position}
      {leftValue rightValue : Value} (meant : meaning op = .equality)
      (ranLeft : left.evaluate env = .ok leftValue) (ranRight : right.evaluate env = .ok rightValue)
      (different : leftValue.type ≠ rightValue.type) :
      Raises (env, binary op left right place) .mixedOperands
  | leftNumber {env : Env Value} {op : BinaryOp} {left right : Expr} {place : Option Position}
      {compute : Int -> Int -> Except EvalFault Value} {truth : Bool} {value : Value}
      (meant : meaning op = .numeric compute) (ranLeft : left.evaluate env = .ok (.bool truth))
      (ranRight : right.evaluate env = .ok value) :
      Raises (env, binary op left right place) (.notInt (.left op))
  | rightNumber {env : Env Value} {op : BinaryOp} {left right : Expr} {place : Option Position}
      {compute : Int -> Int -> Except EvalFault Value} {number : Int} {truth : Bool}
      (meant : meaning op = .numeric compute) (ranLeft : left.evaluate env = .ok (.int number))
      (ranRight : right.evaluate env = .ok (.bool truth)) :
      Raises (env, binary op left right place) (.notInt (.right op))
  | division {env : Env Value} {op : BinaryOp} {left right : Expr} {place : Option Position}
      {compute : Int -> Int -> Except EvalFault Value} {leftNumber rightNumber : Int}
      (meant : meaning op = .numeric compute) (ranLeft : left.evaluate env = .ok (.int leftNumber))
      (ranRight : right.evaluate env = .ok (.int rightNumber))
      (undefined : compute leftNumber rightNumber = .error .divisionByZero) :
      Raises (env, binary op left right place) .divisionByZero

theorem Raises.evaluate_eq_error {call : Env Value × Expr} {fault : EvalFault}
    (raises : Raises call fault) : call.2.evaluate call.1 = .error fault := by
  cases raises with
  | name absent => rw [evaluate, absent]
  | condition ran =>
      rw [evaluate, ran]
      rfl
  | negation ran =>
      rw [evaluate, ran]
      rfl
  | complement ran =>
      rw [evaluate, ran]
      rfl
  | leftTruth meant ranLeft =>
      rw [evaluate, ranLeft, meant]
      rfl
  | @rightTruth _ _ _ _ _ decisive _ meant ranLeft ranRight =>
      rw [evaluate, ranLeft, meant, ranRight]
      cases decisive <;> rfl
  | @mixed _ _ _ _ _ leftValue rightValue meant ranLeft ranRight different =>
      rw [evaluate, ranLeft, meant, ranRight]
      cases leftValue <;> cases rightValue
      · exact absurd rfl different
      · rfl
      · rfl
      · exact absurd rfl different
  | leftNumber meant ranLeft ranRight =>
      rw [evaluate, ranLeft, meant, ranRight]
      rfl
  | rightNumber meant ranLeft ranRight =>
      rw [evaluate, ranLeft, meant, ranRight]
      rfl
  | division meant ranLeft ranRight undefined =>
      rw [evaluate, ranLeft, meant, ranRight]
      exact undefined

/-- The fault of an operator is its own or comes from one of its operands. -/
theorem raises_or_calls_binary {op : BinaryOp} {env : Env Value} {left right : Expr}
    {place : Option Position} {fault : EvalFault}
    (failed : (binary op left right place).evaluate env = .error fault) :
    Raises (env, binary op left right place) fault ∨
      exists callee, Calls (env, binary op left right place) callee ∧
        callee.2.evaluate callee.1 = .error fault := by
  rw [evaluate] at failed
  rcases bind_eq_error failed with inLeft | ⟨leftValue, ranLeft, failed⟩
  · exact Or.inr ⟨_, .left, inLeft⟩
  · cases meant : meaning op with
    | logical decisive =>
        rw [meant] at failed
        cases leftValue with
        | int number =>
            cases failed
            exact Or.inl (.leftTruth meant ranLeft)
        | bool truth =>
            change (if truth = decisive then _ else _) = _ at failed
            by_cases decided : truth = decisive
            · rw [if_pos decided] at failed
              cases failed
            · rw [if_neg decided] at failed
              rw [Bool.eq_not_of_ne decided] at ranLeft
              rcases bind_eq_error failed with inRight | ⟨rightValue, ranRight, complaint⟩
              · refine Or.inr ⟨_, .right ranLeft ?_, inRight⟩
                intro other same
                cases meant.symm.trans same
                rfl
              · cases rightValue with
                | int number =>
                    cases complaint
                    exact Or.inl (.rightTruth meant ranLeft ranRight)
                | bool truth => cases complaint
    | equality =>
        rw [meant] at failed
        rcases bind_eq_error failed with inRight | ⟨rightValue, ranRight, complaint⟩
        · refine Or.inr ⟨_, .right ranLeft ?_, inRight⟩
          intro decisive same
          cases meant.symm.trans same
        · cases leftValue <;> cases rightValue <;> cases complaint
          · exact Or.inl (.mixed meant ranLeft ranRight (fun same => by cases same))
          · exact Or.inl (.mixed meant ranLeft ranRight (fun same => by cases same))
    | numeric compute =>
        rw [meant] at failed
        rcases bind_eq_error failed with inRight | ⟨rightValue, ranRight, complaint⟩
        · refine Or.inr ⟨_, .right ranLeft ?_, inRight⟩
          intro decisive same
          cases meant.symm.trans same
        · cases leftValue with
          | bool truth =>
              cases complaint
              exact Or.inl (.leftNumber meant ranLeft ranRight)
          | int leftNumber =>
              cases rightValue with
              | bool truth =>
                  cases complaint
                  exact Or.inl (.rightNumber meant ranLeft ranRight)
              | int rightNumber =>
                  cases numeric_fault meant complaint
                  exact Or.inl (.division meant ranLeft ranRight complaint)

/-- A fault is raised by the expression itself or by a part. -/
theorem raises_or_calls {env : Env Value} {e : Expr} {fault : EvalFault}
    (failed : e.evaluate env = .error fault) :
    Raises (env, e) fault ∨
      exists callee, Calls (env, e) callee ∧ callee.2.evaluate callee.1 = .error fault := by
  cases e with
  | int value place => cases failed
  | bool value place => cases failed
  | var name place =>
      rw [evaluate] at failed
      cases found : env.find? name with
      | none =>
          rw [found] at failed
          cases failed
          exact Or.inl (.name found)
      | some value =>
          rw [found] at failed
          cases failed
  | letIn name bound body place =>
      rw [evaluate] at failed
      rcases bind_eq_error failed with inBound | ⟨value, ran, inBody⟩
      · exact Or.inr ⟨_, .bound, inBound⟩
      · exact Or.inr ⟨_, .body ran, inBody⟩
  | ite condition consequent alternate place =>
      rw [evaluate] at failed
      rcases bind_eq_error failed with inCondition | ⟨value, ran, inBranch⟩
      · exact Or.inr ⟨_, .condition, inCondition⟩
      · cases value with
        | int number =>
            cases inBranch
            exact Or.inl (.condition ran)
        | bool chosen =>
            cases chosen with
            | true => exact Or.inr ⟨_, .consequent ran, inBranch⟩
            | false => exact Or.inr ⟨_, .alternate ran, inBranch⟩
  | unary op operand place =>
      cases op with
      | neg =>
          rw [evaluate] at failed
          rcases bind_eq_error failed with inOperand | ⟨value, ran, complaint⟩
          · exact Or.inr ⟨_, .operand, inOperand⟩
          · cases value with
            | int number => cases complaint
            | bool truth =>
                cases complaint
                exact Or.inl (.negation ran)
      | not =>
          rw [evaluate] at failed
          rcases bind_eq_error failed with inOperand | ⟨value, ran, complaint⟩
          · exact Or.inr ⟨_, .operand, inOperand⟩
          · cases value with
            | bool truth => cases complaint
            | int number =>
                cases complaint
                exact Or.inl (.complement ran)
  | binary op left right place => exact raises_or_calls_binary failed

/-- A fault can be traced to the part that raises it. -/
theorem exists_reaches_raises {fault : EvalFault} (env : Env Value) (e : Expr)
    (failed : e.evaluate env = .error fault) :
    exists callee, Reaches (env, e) callee ∧ Raises callee fault := by
  rcases raises_or_calls failed with raises | ⟨callee, calls, partFailed⟩
  · exact ⟨_, .refl, raises⟩
  · -- The recursion is on the size: a part is smaller than the whole.
    have smaller := calls.size_lt
    rcases exists_reaches_raises callee.1 callee.2 partFailed with ⟨last, reaches, raises⟩
    exact ⟨last, .head calls reaches, raises⟩
  termination_by e.size

/-- An expression has a fault exactly if its evaluation comes upon a part that raises it. -/
theorem evaluate_eq_error_iff {fault : EvalFault} (env : Env Value) (e : Expr) :
    e.evaluate env = .error fault ↔ exists callee, Reaches (env, e) callee ∧ Raises callee fault := by
  constructor
  · exact exists_reaches_raises env e
  · rintro ⟨callee, reaches, raises⟩
    exact reaches.evaluate_eq_error raises.evaluate_eq_error

/-- The operator is given a truth value on its left, and another value on its right. -/
def Misuses (op : BinaryOp) (call : Env Value × Expr) : Prop :=
  exists left right place truth value, call.2 = binary op left right place ∧
    left.evaluate call.1 = .ok (.bool truth) ∧ right.evaluate call.1 = .ok value

/-- A complaint about a left operand can be traced to its operator. -/
theorem exists_reaches_misuses {op : BinaryOp} (env : Env Value) (e : Expr)
    (failed : e.evaluate env = .error (.notInt (.left op))) :
    exists callee, Reaches (env, e) callee ∧ Misuses op callee := by
  rcases exists_reaches_raises env e failed with ⟨callee, reaches, raises⟩
  cases raises with
  | leftNumber _ ranLeft ranRight => exact ⟨_, reaches, _, _, _, _, _, rfl, ranLeft, ranRight⟩

/-! ## Orderings of truth values -/

/-- Evaluation of the program comes upon an ordering of two truth values. -/
def OrdersTruths (op : BinaryOp) (e : Expr) : Prop :=
  exists env left right place leftTruth rightTruth, Reaches ([], e) (env, binary op left right place) ∧
    left.evaluate env = .ok (.bool leftTruth) ∧ right.evaluate env = .ok (.bool rightTruth)

theorem exists_numeric {op : BinaryOp} (ordering : op ∈ [.lt, .le, .gt, .ge]) :
    exists compute, meaning op = .numeric compute := by
  simp only [List.mem_cons, List.not_mem_nil, or_false] at ordering
  rcases ordering with rfl | rfl | rfl | rfl <;> exact ⟨_, rfl⟩

/-- Truth values cannot be ordered. -/
theorem evaluate_of_ordersTruths {op : BinaryOp} (ordering : op ∈ [.lt, .le, .gt, .ge]) {e : Expr}
    (orders : OrdersTruths op e) : e.evaluate [] = .error (.notInt (.left op)) := by
  rcases orders with ⟨env, left, right, place, leftTruth, rightTruth, reaches, ranLeft, ranRight⟩
  rcases exists_numeric ordering with ⟨compute, numeric⟩
  exact (evaluate_eq_error_iff [] e).mpr ⟨_, reaches, .leftNumber numeric ranLeft ranRight⟩

/-- In a typed program the right operand of the operator is a truth value too. -/
theorem ordersTruths_of_evaluate {comparison : Comparison} {op : BinaryOp} {e : Expr}
    (typed : Typed comparison ([], e)) (failed : e.evaluate [] = .error (.notInt (.left op))) :
    OrdersTruths op e := by
  rcases exists_reaches_misuses [] e failed with
    ⟨⟨env, callee⟩, reaches, left, right, place, leftTruth, rightValue, rfl, ranLeft, ranRight⟩
  have same := (reaches.typed typed).operands ranLeft ranRight
  rcases Value.exists_bool same.symm with ⟨rightTruth, rfl⟩
  exact ⟨env, left, right, place, leftTruth, rightTruth, reaches, ranLeft, ranRight⟩

/-- If any two operands of one type may be ordered, a well-scoped program with a type evaluates to a
value of this type, divides by zero, or complains that the left operand of an ordering is a truth
value.  It makes this complaint exactly if it comes upon such an ordering of two truth values. -/
theorem evaluate_of_infer_same (e : Expr) (wellScoped : e.isWellScoped = true) (inference : Inference)
    (inferred : e.infer .same = .ok inference) (typing : Typing)
    (succeeded : inference.typing = .ok typing) :
    ((exists value, e.evaluate [] = .ok value ∧ value.type = typing.type) ∨
      (exists fault, e.evaluate [] = .error fault ∧ fault.kind = .divisionByZero) ∨
      (exists fault op name, e.evaluate [] = .error fault ∧ fault.kind = .typeError ∧
        (op, name) ∈ [(BinaryOp.lt, ("lt" : Text)), (.le, "le"), (.gt, "gt"), (.ge, "ge")] ∧
        fault.message = "left operand of " ++ name ++ " must be int, got bool" ∧ OrdersTruths op e)) ∧
    (forall op, op ∈ [.lt, .le, .gt, .ge] ->
      (e.evaluate [] = .error (.notInt (.left op)) ↔ OrdersTruths op e)) := by
  have typed : Typed .same ([], e) :=
    ⟨.empty, typing.type, Env.fits_empty, derivation_of_infer wellScoped inferred succeeded⟩
  constructor
  · have safe := evaluate_safe_of_infer wellScoped inferred succeeded
    cases outcome : e.evaluate [] with
    | ok value =>
        rw [outcome] at safe
        cases safe with
        | value valueTyped => exact Or.inl ⟨value, rfl, valueTyped⟩
    | error fault =>
        rw [outcome] at safe
        cases safe with
        | divisionByZero => exact Or.inr (Or.inl ⟨_, rfl, rfl⟩)
        | @unordered op rule ordering =>
            have orders := ordersTruths_of_evaluate typed outcome
            refine Or.inr (Or.inr ⟨_, op, op.name, rfl, rfl, ?_, rfl, orders⟩)
            simp only [List.mem_cons, List.not_mem_nil, or_false] at ordering
            rcases ordering with rfl | rfl | rfl | rfl <;> decide
  · intro op ordering
    exact ⟨ordersTruths_of_evaluate typed, evaluate_of_ordersTruths ordering⟩

/-- Two truth values are ordered after a quotient by zero has been left out. -/
def orderedTruths : Expr :=
  letIn "b" (binary .or (bool true none)
      (binary .eql (binary .div (int 1 none) (int 0 none) none) (int 1 none) none) none)
    (ite (var "b" none) (binary .ge (var "b" none) (unary .not (var "b" none) none) none)
      (var "b" none) none) none

def orderedTruthsDerivation : Derivation .same .empty orderedTruths .bool :=
  .letIn
    (.binary (.logical (by decide)) .bool
      (.binary .equality (.binary (.arithmetic (by decide)) .int .int) .int))
    (.ite (.var rfl)
      (.binary (.ordering (by decide) (fun strict => Comparison.noConfusion strict)) (.var rfl)
        (.not (.var rfl)))
      (.var rfl))

theorem evaluate_orderedTruths : orderedTruths.isWellScoped = true ∧
    exists inference typing, orderedTruths.infer .same = .ok inference ∧
      inference.typing = .ok typing ∧ typing.type = .bool ∧
      orderedTruths.evaluate [] = .error (.notInt (.left .ge)) ∧ OrdersTruths .ge orderedTruths := by
  have wellScoped : orderedTruths.isWellScoped = true := by decide
  refine ⟨wellScoped, ?_⟩
  rcases infer_cases wellScoped .same with
    ⟨inference, inferred, ⟨typing, succeeded, derivation, _⟩ | ⟨_, underivable⟩⟩
  · have failed : orderedTruths.evaluate [] = .error (.notInt (.left .ge)) := rfl
    have orders := evaluate_of_infer_same orderedTruths wellScoped inference inferred typing succeeded
    exact ⟨inference, typing, inferred, succeeded, derivation.type_unique orderedTruthsDerivation, failed,
      (orders.2 .ge (by decide)).mp failed⟩
  · exact ((underivable .bool).false orderedTruthsDerivation).elim

end Expr

end Monotype
