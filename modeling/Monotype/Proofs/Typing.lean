import Monotype.Constraint
import Monotype.Expr
import Mathlib.Data.List.Perm.Basic

namespace Monotype

/-!
# Type derivations

The types of the language by rules, without unknowns and equations.  A derivation
is a tree that follows the expression, so each node of the expression has a type in
it, and so has each binding: the type of the bound expression.

A context and an expression leave no choice: they have at most one type, and
at most one derivation of it.
-/

/-- The types that a binary operator takes and gives.  Both operands have one type;
`=` leaves it open, and so do the orderings if the comparison rule allows it. -/
inductive Signature (comparison : Comparison) : BinaryOp -> (operand result : Ground) -> Prop where
  | arithmetic {op : BinaryOp} (member : op ∈ [.add, .sub, .mul, .div]) :
      Signature comparison op .int .int
  | logical {op : BinaryOp} (member : op ∈ [.and, .or]) :
      Signature comparison op .bool .bool
  | equality {operand : Ground} :
      Signature comparison .eql operand .bool
  | ordering {op : BinaryOp} {operand : Ground} (member : op ∈ [.lt, .le, .gt, .ge])
      (rule : comparison = .int -> operand = .int) :
      Signature comparison op operand .bool

abbrev Context := Text -> Option Ground

namespace Context

def empty : Context :=
  fun _ => none

/-- A context in which a name has a new type. -/
def bind (context : Context) (name : Text) (type : Ground) : Context :=
  fun probe => if name = probe then some type else context probe

end Context

/-- The derivations of a type for an expression in a context. -/
inductive Derivation (comparison : Comparison) : Context -> Expr -> Ground -> Type where
  | int {context : Context} {value : Int} {place : Option Position} :
      Derivation comparison context (.int value place) .int
  | bool {context : Context} {value : Bool} {place : Option Position} :
      Derivation comparison context (.bool value place) .bool
  | var {context : Context} {name : Text} {place : Option Position} {type : Ground}
      (found : context name = some type) :
      Derivation comparison context (.var name place) type
  | letIn {context : Context} {name : Text} {bound body : Expr} {place : Option Position}
      {boundType bodyType : Ground} (ofBound : Derivation comparison context bound boundType)
      (ofBody : Derivation comparison (context.bind name boundType) body bodyType) :
      Derivation comparison context (.letIn name bound body place) bodyType
  | ite {context : Context} {condition consequent alternate : Expr} {place : Option Position}
      {type : Ground} (ofCondition : Derivation comparison context condition .bool)
      (ofConsequent : Derivation comparison context consequent type)
      (ofAlternate : Derivation comparison context alternate type) :
      Derivation comparison context (.ite condition consequent alternate place) type
  | neg {context : Context} {operand : Expr} {place : Option Position}
      (ofOperand : Derivation comparison context operand .int) :
      Derivation comparison context (.unary .neg operand place) .int
  | not {context : Context} {operand : Expr} {place : Option Position}
      (ofOperand : Derivation comparison context operand .bool) :
      Derivation comparison context (.unary .not operand place) .bool
  | binary {context : Context} {op : BinaryOp} {left right : Expr} {place : Option Position}
      {operand result : Ground} (signature : Signature comparison op operand result)
      (ofLeft : Derivation comparison context left operand)
      (ofRight : Derivation comparison context right operand) :
      Derivation comparison context (.binary op left right place) result

namespace Signature

variable {comparison : Comparison} {op : BinaryOp} {operand result : Ground}

/-- The family of an operator decides what its signature may be. -/
theorem iff_family : Signature comparison op operand result ↔
    match op.family with
    | .arithmetic => operand = .int ∧ result = .int
    | .logical => operand = .bool ∧ result = .bool
    | .equality => result = .bool
    | .ordering => result = .bool ∧ (comparison = .int -> operand = .int) := by
  constructor
  · intro signature
    cases signature with
    | arithmetic member =>
        simp only [List.mem_cons, List.not_mem_nil, or_false] at member
        rcases member with rfl | rfl | rfl | rfl <;> exact ⟨rfl, rfl⟩
    | logical member =>
        simp only [List.mem_cons, List.not_mem_nil, or_false] at member
        rcases member with rfl | rfl <;> exact ⟨rfl, rfl⟩
    | equality => rfl
    | ordering member rule =>
        simp only [List.mem_cons, List.not_mem_nil, or_false] at member
        rcases member with rfl | rfl | rfl | rfl <;> exact ⟨rfl, rule⟩
  · intro types
    cases family : op.family with
    | arithmetic =>
        rw [family] at types
        rw [types.1, types.2]
        exact arithmetic (by cases op <;> simp [BinaryOp.family] at family ⊢)
    | logical =>
        rw [family] at types
        rw [types.1, types.2]
        exact logical (by cases op <;> simp [BinaryOp.family] at family ⊢)
    | equality =>
        rw [family] at types
        have is : op = .eql := by cases op <;> simp [BinaryOp.family] at family ⊢
        subst is
        rw [types]
        exact equality
    | ordering =>
        rw [family] at types
        rw [types.1]
        exact ordering (by cases op <;> simp [BinaryOp.family] at family ⊢) types.2

theorem result_unique (first : Signature comparison op operand result) {operand' result' : Ground}
    (second : Signature comparison op operand' result') : result = result' := by
  rw [iff_family] at first second
  cases family : op.family with
  | arithmetic =>
      rw [family] at first second
      rw [first.2, second.2]
  | logical =>
      rw [family] at first second
      rw [first.2, second.2]
  | equality =>
      rw [family] at first second
      rw [first, second]
  | ordering =>
      rw [family] at first second
      rw [first.1, second.1]

end Signature

namespace Derivation

variable {comparison : Comparison} {context : Context} {e : Expr} {type : Ground}

/-- The types of the nodes of an expression whose root has number `first`, each node
after its children. -/
def nodeTypes {context : Context} {e : Expr} {type : Ground} (first : Nat) :
    Derivation comparison context e type -> List (Nat × Ground)
  | int => [(first, .int)]
  | bool => [(first, .bool)]
  | @var _ _ _ _ type _ => [(first, type)]
  | @letIn _ _ _ bound _ _ _ bodyType ofBound ofBody =>
      ofBound.nodeTypes (first + 1) ++ ofBody.nodeTypes (first + 1 + bound.size)
        ++ [(first, bodyType)]
  | @ite _ _ condition consequent _ _ type ofCondition ofConsequent ofAlternate =>
      ofCondition.nodeTypes (first + 1) ++ ofConsequent.nodeTypes (first + 1 + condition.size)
        ++ ofAlternate.nodeTypes (first + 1 + condition.size + consequent.size) ++ [(first, type)]
  | neg ofOperand => ofOperand.nodeTypes (first + 1) ++ [(first, .int)]
  | not ofOperand => ofOperand.nodeTypes (first + 1) ++ [(first, .bool)]
  | @binary _ _ _ left _ _ _ result _ ofLeft ofRight =>
      ofLeft.nodeTypes (first + 1) ++ ofRight.nodeTypes (first + 1 + left.size)
        ++ [(first, result)]

/-- The bindings of an expression whose root has number `first`: the name, the number
of the node and the type of the bound expression.  A binding stands between the
bindings of its bound expression and those of its body. -/
def bindings {context : Context} {e : Expr} {type : Ground} (first : Nat) :
    Derivation comparison context e type -> List (Text × Nat × Ground)
  | int => []
  | bool => []
  | var _ => []
  | @letIn _ _ name bound _ _ boundType _ ofBound ofBody =>
      ofBound.bindings (first + 1) ++ [(name, first, boundType)]
        ++ ofBody.bindings (first + 1 + bound.size)
  | @ite _ _ condition consequent _ _ _ ofCondition ofConsequent ofAlternate =>
      ofCondition.bindings (first + 1) ++ ofConsequent.bindings (first + 1 + condition.size)
        ++ ofAlternate.bindings (first + 1 + condition.size + consequent.size)
  | neg ofOperand => ofOperand.bindings (first + 1)
  | not ofOperand => ofOperand.bindings (first + 1)
  | @binary _ _ _ left _ _ _ _ _ ofLeft ofRight =>
      ofLeft.bindings (first + 1) ++ ofRight.bindings (first + 1 + left.size)

theorem type_unique (first : Derivation comparison context e type) {other : Ground}
    (second : Derivation comparison context e other) : type = other := by
  induction first generalizing other with
  | int => cases second; rfl
  | bool => cases second; rfl
  | var found =>
      cases second with
      | var found' => exact Option.some.inj (found.symm.trans found')
  | letIn ofBound ofBody boundIh bodyIh =>
      cases second with
      | letIn ofBound' ofBody' =>
          have same := boundIh ofBound'
          subst same
          exact bodyIh ofBody'
  | ite ofCondition ofConsequent ofAlternate conditionIh consequentIh alternateIh =>
      cases second with
      | ite _ ofConsequent' _ => exact consequentIh ofConsequent'
  | neg ofOperand ih => cases second; rfl
  | not ofOperand ih => cases second; rfl
  | binary signature ofLeft ofRight leftIh rightIh =>
      cases second with
      | binary signature' _ _ => exact signature.result_unique signature'

/-- There is at most one derivation. -/
theorem eq_of_type_eq (first second : Derivation comparison context e type) : first = second := by
  induction first with
  | int => cases second; rfl
  | bool => cases second; rfl
  | var found => cases second; rfl
  | letIn ofBound ofBody boundIh bodyIh =>
      cases second with
      | letIn ofBound' ofBody' =>
          have same := ofBound.type_unique ofBound'
          subst same
          rw [boundIh ofBound', bodyIh ofBody']
  | ite ofCondition ofConsequent ofAlternate conditionIh consequentIh alternateIh =>
      cases second with
      | ite ofCondition' ofConsequent' ofAlternate' =>
          rw [conditionIh ofCondition', consequentIh ofConsequent', alternateIh ofAlternate']
  | neg ofOperand ih =>
      cases second with
      | neg ofOperand' => rw [ih ofOperand']
  | not ofOperand ih =>
      cases second with
      | not ofOperand' => rw [ih ofOperand']
  | binary signature ofLeft ofRight leftIh rightIh =>
      cases second with
      | binary signature' ofLeft' ofRight' =>
          have same := ofLeft.type_unique ofLeft'
          subst same
          rw [leftIh ofLeft', rightIh ofRight']

theorem root_last {children : List Nat} {first count : Nat}
    (perm : children.Perm (List.range' (first + 1) count)) :
    (children ++ [first]).Perm (List.range' first (1 + count)) := by
  rw [Nat.add_comm 1 count, List.range'_succ]
  exact (List.perm_append_singleton first children).trans (perm.cons first)

/-- Every node has exactly one type. -/
theorem nodes_perm (derivation : Derivation comparison context e type) (first : Nat) :
    ((derivation.nodeTypes first).map Prod.fst).Perm (List.range' first e.size) := by
  induction derivation generalizing first with
  | int => exact List.Perm.refl _
  | bool => exact List.Perm.refl _
  | var found => exact List.Perm.refl _
  | @letIn _ _ bound body _ _ _ _ _ boundIh bodyIh =>
      simp only [nodeTypes, List.map_append, List.map_cons, List.map_nil]
      rw [Expr.size, Nat.add_assoc 1]
      refine root_last ?_
      rw [← List.range'_append_1]
      exact (boundIh (first + 1)).append (bodyIh (first + 1 + bound.size))
  | @ite _ condition consequent alternate _ _ _ _ _ conditionIh consequentIh alternateIh =>
      simp only [nodeTypes, List.map_append, List.map_cons, List.map_nil]
      rw [Expr.size, Nat.add_assoc 1, Nat.add_assoc 1]
      refine root_last ?_
      rw [← List.range'_append_1, ← List.range'_append_1, ← Nat.add_assoc (first + 1)]
      exact ((conditionIh (first + 1)).append (consequentIh (first + 1 + condition.size))).append
        (alternateIh (first + 1 + condition.size + consequent.size))
  | neg ofOperand ih =>
      simp only [nodeTypes, List.map_append, List.map_cons, List.map_nil]
      exact root_last (ih (first + 1))
  | not ofOperand ih =>
      simp only [nodeTypes, List.map_append, List.map_cons, List.map_nil]
      exact root_last (ih (first + 1))
  | @binary _ _ left right _ _ _ _ _ _ leftIh rightIh =>
      simp only [nodeTypes, List.map_append, List.map_cons, List.map_nil]
      rw [Expr.size, Nat.add_assoc 1]
      refine root_last ?_
      rw [← List.range'_append_1]
      exact (leftIh (first + 1)).append (rightIh (first + 1 + left.size))

end Derivation

end Monotype
