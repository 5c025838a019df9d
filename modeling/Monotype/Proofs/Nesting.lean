import Monotype.Proofs.Binders

namespace Monotype

/-!
# Nodes and the bodies around them

Nodes are numbered from the root downwards and from left to right, so the nodes of a part have numbers
without a gap.  They can be listed in another order, each behind the nodes of its parts.  Some nodes
need an unknown: every `let`, and every operator whose operands share a type that it leaves open.

A `let` encloses the nodes of its body.  Of all `let`s of a name that enclose a node, the innermost is
itself enclosed by the other ones.
-/

namespace Expr

/-! ## Parts and their numbers -/

/-- The node with the given number is `part`, if the root of the expression has number `first`. -/
def At (e : Expr) (first : Nat) (part : Expr) (node : Nat) : Prop :=
  (part, node) ∈ e.parts.zipIdx first

section At

variable {first node : Nat} {part : Expr} {place : Option Position}

theorem at_int_iff {value : Int} :
    (int value place).At first part node ↔ part = int value place ∧ node = first := by
  simp only [At, parts, List.zipIdx_singleton, List.mem_singleton, Prod.mk.injEq]

theorem at_bool_iff {value : Bool} :
    (bool value place).At first part node ↔ part = bool value place ∧ node = first := by
  simp only [At, parts, List.zipIdx_singleton, List.mem_singleton, Prod.mk.injEq]

theorem at_var_iff {name : Text} :
    (var name place).At first part node ↔ part = var name place ∧ node = first := by
  simp only [At, parts, List.zipIdx_singleton, List.mem_singleton, Prod.mk.injEq]

theorem at_letIn_iff {name : Text} {bound body : Expr} :
    (letIn name bound body place).At first part node ↔
      (part = letIn name bound body place ∧ node = first) ∨
        bound.At (first + 1) part node ∨ body.At (first + 1 + bound.size) part node := by
  simp only [At, parts, List.zipIdx_cons, List.zipIdx_append, List.mem_cons, List.mem_append,
    length_parts, Prod.mk.injEq]

theorem at_ite_iff {condition consequent alternate : Expr} :
    (ite condition consequent alternate place).At first part node ↔
      (part = ite condition consequent alternate place ∧ node = first) ∨
        condition.At (first + 1) part node ∨ consequent.At (first + 1 + condition.size) part node ∨
        alternate.At (first + 1 + condition.size + consequent.size) part node := by
  simp only [At, parts, List.zipIdx_cons, List.zipIdx_append, List.mem_cons, List.mem_append,
    List.length_append, length_parts, Prod.mk.injEq, or_assoc, Nat.add_assoc]

theorem at_unary_iff {op : UnaryOp} {operand : Expr} :
    (unary op operand place).At first part node ↔
      (part = unary op operand place ∧ node = first) ∨ operand.At (first + 1) part node := by
  simp only [At, parts, List.zipIdx_cons, List.mem_cons, Prod.mk.injEq]

theorem at_binary_iff {op : BinaryOp} {left right : Expr} :
    (binary op left right place).At first part node ↔
      (part = binary op left right place ∧ node = first) ∨
        left.At (first + 1) part node ∨ right.At (first + 1 + left.size) part node := by
  simp only [At, parts, List.zipIdx_cons, List.zipIdx_append, List.mem_cons, List.mem_append,
    length_parts, Prod.mk.injEq]

/-- The nodes of a part have numbers among those of the whole. -/
theorem At.range {e : Expr} (isPart : e.At first part node) :
    first ≤ node ∧ node + part.size ≤ first + e.size := by
  induction e generalizing first with
  | int value place =>
      rcases at_int_iff.mp isPart with ⟨rfl, rfl⟩
      omega
  | bool value place =>
      rcases at_bool_iff.mp isPart with ⟨rfl, rfl⟩
      omega
  | var name place =>
      rcases at_var_iff.mp isPart with ⟨rfl, rfl⟩
      omega
  | letIn name bound body place boundIh bodyIh =>
      rcases at_letIn_iff.mp isPart with ⟨rfl, rfl⟩ | inBound | inBody
      · omega
      · have range := boundIh inBound
        rw [size]
        omega
      · have range := bodyIh inBody
        rw [size]
        omega
  | ite condition consequent alternate place conditionIh consequentIh alternateIh =>
      rcases at_ite_iff.mp isPart with ⟨rfl, rfl⟩ | inCondition | inConsequent | inAlternate
      · omega
      · have range := conditionIh inCondition
        rw [size]
        omega
      · have range := consequentIh inConsequent
        rw [size]
        omega
      · have range := alternateIh inAlternate
        rw [size]
        omega
  | unary op operand place ih =>
      rcases at_unary_iff.mp isPart with ⟨rfl, rfl⟩ | inOperand
      · omega
      · have range := ih inOperand
        rw [size]
        omega
  | binary op left right place leftIh rightIh =>
      rcases at_binary_iff.mp isPart with ⟨rfl, rfl⟩ | inLeft | inRight
      · omega
      · have range := leftIh inLeft
        rw [size]
        omega
      · have range := rightIh inRight
        rw [size]
        omega

end At

/-! ## Nodes in the order in which they are left -/

/-- The nodes of an expression with their numbers, each behind the nodes of its parts. -/
def postOrder (first : Nat) : Expr -> List (Expr × Nat)
  | int value place => [(int value place, first)]
  | bool value place => [(bool value place, first)]
  | var name place => [(var name place, first)]
  | letIn name bound body place =>
      bound.postOrder (first + 1) ++ body.postOrder (first + 1 + bound.size) ++
        [(letIn name bound body place, first)]
  | ite condition consequent alternate place =>
      condition.postOrder (first + 1) ++ consequent.postOrder (first + 1 + condition.size) ++
        alternate.postOrder (first + 1 + condition.size + consequent.size) ++
          [(ite condition consequent alternate place, first)]
  | unary op operand place => operand.postOrder (first + 1) ++ [(unary op operand place, first)]
  | binary op left right place =>
      left.postOrder (first + 1) ++ right.postOrder (first + 1 + left.size) ++
        [(binary op left right place, first)]

/-- The root is left last. -/
theorem exists_postOrder_eq (e : Expr) (first : Nat) :
    exists front, e.postOrder first = front ++ [(e, first)] := by
  cases e with
  | int value place => exact ⟨[], rfl⟩
  | bool value place => exact ⟨[], rfl⟩
  | var name place => exact ⟨[], rfl⟩
  | letIn name bound body place => exact ⟨_, rfl⟩
  | ite condition consequent alternate place => exact ⟨_, rfl⟩
  | unary op operand place => exact ⟨_, rfl⟩
  | binary op left right place => exact ⟨_, rfl⟩

/-- Every node is left once. -/
theorem postOrder_perm (e : Expr) (first : Nat) : (e.postOrder first).Perm (e.parts.zipIdx first) := by
  induction e generalizing first with
  | int value place => exact List.Perm.refl _
  | bool value place => exact List.Perm.refl _
  | var name place => exact List.Perm.refl _
  | letIn name bound body place boundIh bodyIh =>
      rw [postOrder, parts, List.zipIdx_cons, List.zipIdx_append, length_parts]
      exact (List.perm_append_singleton _ _).trans (((boundIh _).append (bodyIh _)).cons _)
  | ite condition consequent alternate place conditionIh consequentIh alternateIh =>
      rw [postOrder, parts, List.zipIdx_cons, List.zipIdx_append, List.zipIdx_append, List.length_append,
        length_parts, length_parts, ← Nat.add_assoc]
      exact (List.perm_append_singleton _ _).trans
        ((((conditionIh _).append (consequentIh _)).append (alternateIh _)).cons _)
  | unary op operand place ih =>
      rw [postOrder, parts, List.zipIdx_cons]
      exact (List.perm_append_singleton _ _).trans ((ih _).cons _)
  | binary op left right place leftIh rightIh =>
      rw [postOrder, parts, List.zipIdx_cons, List.zipIdx_append, length_parts]
      exact (List.perm_append_singleton _ _).trans (((leftIh _).append (rightIh _)).cons _)

theorem map_snd_postOrder_perm (e : Expr) (first : Nat) :
    ((e.postOrder first).map Prod.snd).Perm (List.range' first e.size) := by
  have perm := (e.postOrder_perm first).map Prod.snd
  rwa [List.zipIdx_map_snd, length_parts] at perm

/-! ## Nodes that draw an unknown -/

end Expr

/-- Whether an operator takes operands of any one type. -/
def BinaryOp.shares (comparison : Comparison) : BinaryOp -> Bool
  | eql => true
  | lt | le | gt | ge => comparison = .same
  | _ => false

theorem BinaryOp.operandType?_eq_none_iff {comparison : Comparison} {op : BinaryOp} :
    Gather.operandType? comparison op = none ↔ op.shares comparison = true := by
  cases op <;> cases comparison <;> decide

namespace Expr

/-- Whether a node needs an unknown: a `let` for its result, an operator for the type that its operands
share. -/
def draws (comparison : Comparison) : Expr -> Bool
  | letIn _ _ _ _ => true
  | binary op _ _ _ => op.shares comparison
  | _ => false

/-- The nodes that draw an unknown, in the order in which they do. -/
def drawers (comparison : Comparison) (first : Nat) (e : Expr) : List (Expr × Nat) :=
  (e.postOrder first).filter (fun entry => entry.1.draws comparison)

variable {comparison : Comparison}

theorem drawers_letIn (first : Nat) (name : Text) (bound body : Expr) (place : Option Position) :
    (letIn name bound body place).drawers comparison first =
      bound.drawers comparison (first + 1) ++ body.drawers comparison (first + 1 + bound.size) ++
        [(letIn name bound body place, first)] := by
  simp only [drawers, postOrder, List.filter_append, List.filter_cons, List.filter_nil, draws, if_true]

theorem drawers_ite (first : Nat) (condition consequent alternate : Expr) (place : Option Position) :
    (ite condition consequent alternate place).drawers comparison first =
      condition.drawers comparison (first + 1) ++
        consequent.drawers comparison (first + 1 + condition.size) ++
          alternate.drawers comparison (first + 1 + condition.size + consequent.size) := by
  simp only [drawers, postOrder, List.filter_append, List.filter_cons, List.filter_nil, draws,
    Bool.false_eq_true, if_false, List.append_nil]

theorem drawers_unary (first : Nat) (op : UnaryOp) (operand : Expr) (place : Option Position) :
    (unary op operand place).drawers comparison first = operand.drawers comparison (first + 1) := by
  simp only [drawers, postOrder, List.filter_append, List.filter_cons, List.filter_nil, draws,
    Bool.false_eq_true, if_false, List.append_nil]

theorem drawers_binary (first : Nat) (op : BinaryOp) (left right : Expr) (place : Option Position) :
    (binary op left right place).drawers comparison first =
      left.drawers comparison (first + 1) ++ right.drawers comparison (first + 1 + left.size) ++
        if op.shares comparison = true then [(binary op left right place, first)] else [] := by
  simp only [drawers, postOrder, List.filter_append, List.filter_cons, List.filter_nil, draws]

/-- A node that draws an unknown does so behind all its parts. -/
theorem exists_drawers_eq {e : Expr} (draw : e.draws comparison = true) (first : Nat) :
    exists front, e.drawers comparison first = front ++ [(e, first)] := by
  rcases e.exists_postOrder_eq first with ⟨front, order⟩
  refine ⟨front.filter (fun entry => entry.1.draws comparison), ?_⟩
  rw [drawers, order, List.filter_append, List.filter_singleton, draw, Bool.cond_true]

theorem length_drawers (e : Expr) (first : Nat) :
    (e.drawers comparison first).length = e.parts.countP (draws comparison) := by
  have listed : (e.parts.zipIdx first).map Prod.fst = e.parts := List.zipIdx_map_fst ..
  calc
    (e.drawers comparison first).length
        = (e.postOrder first).countP (fun entry => entry.1.draws comparison) :=
          List.countP_eq_length_filter.symm
    _ = (e.parts.zipIdx first).countP (fun entry => entry.1.draws comparison) :=
          (e.postOrder_perm first).countP_eq _
    _ = ((e.parts.zipIdx first).map Prod.fst).countP (draws comparison) := by
          rw [List.countP_map, Function.comp_def]
    _ = e.parts.countP (draws comparison) := by rw [listed]

/-! ## The innermost binding of a name -/

/-- The node `outer` is a `let` of the given name, and `node` is one of the nodes of its body. -/
def Encloses (e : Expr) (first : Nat) (name : Text) (outer node : Nat) : Prop :=
  exists bound body place part, e.At first (letIn name bound body place) outer ∧
    body.At (outer + 1 + bound.size) part node

/-- The `let` at `outer` has `node` in its body, and all other ones of that name that do have it in
their own bodies. -/
def Innermost (e : Expr) (first : Nat) (name : Text) (outer node : Nat) : Prop :=
  e.Encloses first name outer node ∧
    forall other, e.Encloses first name other node -> other = outer ∨ e.Encloses first name other outer

section Encloses

variable {first node outer : Nat} {name : Text} {place : Option Position}

theorem Encloses.range {e : Expr} (encloses : e.Encloses first name outer node) :
    first ≤ outer ∧ outer < node ∧ node < first + e.size := by
  rcases encloses with ⟨bound, body, place, part, isLet, inBody⟩
  have ofLet := isLet.range
  have ofPart := inBody.range
  have positive := part.size_pos
  rw [size] at ofLet
  omega

theorem encloses_letIn_iff {binder : Text} {bound body : Expr} :
    (letIn binder bound body place).Encloses first name outer node ↔
      (binder = name ∧ outer = first ∧ exists part, body.At (first + 1 + bound.size) part node) ∨
        bound.Encloses (first + 1) name outer node ∨
        body.Encloses (first + 1 + bound.size) name outer node := by
  constructor
  · rintro ⟨otherBound, otherBody, otherPlace, part, isLet, inBody⟩
    rcases at_letIn_iff.mp isLet with ⟨same, rfl⟩ | inside | inside
    · cases same
      exact Or.inl ⟨rfl, rfl, part, inBody⟩
    · exact Or.inr (Or.inl ⟨_, _, _, part, inside, inBody⟩)
    · exact Or.inr (Or.inr ⟨_, _, _, part, inside, inBody⟩)
  · rintro (⟨rfl, rfl, part, inBody⟩ | ⟨_, _, _, part, inside, inBody⟩ |
      ⟨_, _, _, part, inside, inBody⟩)
    · exact ⟨_, _, _, part, at_letIn_iff.mpr (Or.inl ⟨rfl, rfl⟩), inBody⟩
    · exact ⟨_, _, _, part, at_letIn_iff.mpr (Or.inr (Or.inl inside)), inBody⟩
    · exact ⟨_, _, _, part, at_letIn_iff.mpr (Or.inr (Or.inr inside)), inBody⟩

theorem encloses_ite_iff {condition consequent alternate : Expr} :
    (ite condition consequent alternate place).Encloses first name outer node ↔
      condition.Encloses (first + 1) name outer node ∨
        consequent.Encloses (first + 1 + condition.size) name outer node ∨
        alternate.Encloses (first + 1 + condition.size + consequent.size) name outer node := by
  simp only [Encloses, at_ite_iff, reduceCtorEq, false_and, false_or, or_and_right, exists_or]

theorem encloses_unary_iff {op : UnaryOp} {operand : Expr} :
    (unary op operand place).Encloses first name outer node ↔
      operand.Encloses (first + 1) name outer node := by
  simp only [Encloses, at_unary_iff, reduceCtorEq, false_and, false_or]

theorem encloses_binary_iff {op : BinaryOp} {left right : Expr} :
    (binary op left right place).Encloses first name outer node ↔
      left.Encloses (first + 1) name outer node ∨
        right.Encloses (first + 1 + left.size) name outer node := by
  simp only [Encloses, at_binary_iff, reduceCtorEq, false_and, false_or, or_and_right, exists_or]

end Encloses

end Expr

end Monotype
