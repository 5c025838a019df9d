import Monotype.Proofs.Inference

namespace Monotype

/-!
# The binders of a program

Which binders a walk enters, in which order and under which terms, can be read off the expression.
The comparison rule, the names in scope and the unknowns play no part in it.  So the binders of a
program are the same in every run of inference, and only their types are left to be found.  There is
one binder for each `let`, and no two of them share a term.
-/

/-- A binding as it stands in an expression: its name, the number of its node and the place of the
node. -/
structure Binding where
  name : Text
  node : Nat
  place : Option Position
  deriving DecidableEq

namespace Expr

/-- The bindings of an expression whose root has the given number.  A binding stands between those
of its bound expression and those of its body. -/
def bindings (node : Nat) : Expr -> List Binding
  | int _ _ => []
  | bool _ _ => []
  | var _ _ => []
  | letIn name bound body place =>
      bound.bindings (node + 1) ++ ⟨name, node, place⟩ :: body.bindings (node + 1 + bound.size)
  | ite condition consequent alternate _ =>
      condition.bindings (node + 1) ++ consequent.bindings (node + 1 + condition.size) ++
        alternate.bindings (node + 1 + condition.size + consequent.size)
  | unary _ operand _ => operand.bindings (node + 1)
  | binary _ left right _ => left.bindings (node + 1) ++ right.bindings (node + 1 + left.size)

end Expr

namespace Binder

def binding (binder : Binder) : Binding :=
  ⟨binder.name, binder.node, binder.place⟩

/-- The binder for a binding, behind earlier binders. -/
def next (earlier : List Binder) (binding : Binding) : Binder where
  name := binding.name
  term := .binder binding.name (earlier.countP (fun binder => binder.name = binding.name))
  node := binding.node
  place := binding.place

/-- The binders for bindings one after another, behind earlier binders. -/
def entered (earlier : List Binder) (bindings : List Binding) : List Binder :=
  bindings.foldl (fun binders binding => binders ++ [next binders binding]) earlier

theorem entered_append (earlier : List Binder) (first second : List Binding) :
    entered earlier (first ++ second) = entered (entered earlier first) second :=
  List.foldl_append

theorem entered_cons (earlier : List Binder) (binding : Binding) (rest : List Binding) :
    entered earlier (binding :: rest) = entered (earlier ++ [next earlier binding]) rest :=
  rfl

theorem map_binding_entered (earlier : List Binder) (bindings : List Binding) :
    (entered earlier bindings).map binding = earlier.map binding ++ bindings := by
  induction bindings generalizing earlier with
  | nil => rw [entered, List.foldl_nil, List.append_nil]
  | cons first rest ih =>
      rw [entered_cons, ih, List.map_append, List.append_assoc]
      rfl

end Binder

/-! ## Binders are counted -/

namespace Binder

variable {binders : List Binder}

/-- Each binder goes by its name and a number below the count of its name, and no two by the same. -/
structure Counted (binders : List Binder) : Prop where
  numbered : forall binder, binder ∈ binders -> exists index : Nat, binder.term = .binder binder.name index ∧
    index < binders.countP (fun other => other.name = binder.name)
  distinct : (binders.map Binder.term).Nodup

theorem Counted.concat (counted : Counted binders) (binding : Binding) :
    Counted (binders ++ [next binders binding]) := by
  have more (name : Text) : binders.countP (fun other => other.name = name) ≤
      (binders ++ [next binders binding]).countP (fun other => other.name = name) := by
    rw [List.countP_append]
    exact Nat.le_add_right _ _
  constructor
  · intro binder member
    rcases List.mem_append.mp member with earlier | new
    · rcases counted.numbered binder earlier with ⟨index, isTerm, below⟩
      exact ⟨index, isTerm, Nat.lt_of_lt_of_le below (more _)⟩
    · rw [List.mem_singleton.mp new]
      refine ⟨_, rfl, ?_⟩
      rw [List.countP_append, List.countP_singleton, if_pos (decide_eq_true rfl)]
      exact Nat.lt_succ_self _
  · rw [List.map_append, List.map_singleton, List.nodup_append]
    refine ⟨counted.distinct, List.nodup_singleton _, ?_⟩
    rintro _ earlier _ new rfl
    rcases List.mem_map.mp earlier with ⟨binder, listed, same⟩
    rcases counted.numbered binder listed with ⟨index, isTerm, below⟩
    rw [List.mem_singleton.mp new, isTerm] at same
    -- The number of the new binder is the count of its name, and no earlier one reaches it.
    injection same with sameName sameIndex
    rw [sameName] at below
    exact absurd (Int.ofNat.inj sameIndex) (Nat.ne_of_lt below)

theorem Counted.entered (counted : Counted binders) (bindings : List Binding) :
    Counted (entered binders bindings) := by
  induction bindings generalizing binders with
  | nil => exact counted
  | cons binding rest ih => exact ih (counted.concat binding)

theorem counted_nil : Counted [] :=
  ⟨List.forall_mem_nil _, List.nodup_nil⟩

end Binder

/-! ## One binding for each node -/

namespace Expr

/-- An expression and all that it is made of, each in front of its own parts. -/
def parts : Expr -> List Expr
  | int value place => [int value place]
  | bool value place => [bool value place]
  | var name place => [var name place]
  | letIn name bound body place => letIn name bound body place :: (bound.parts ++ body.parts)
  | ite condition consequent alternate place =>
      ite condition consequent alternate place ::
        (condition.parts ++ consequent.parts ++ alternate.parts)
  | unary op operand place => unary op operand place :: operand.parts
  | binary op left right place => binary op left right place :: (left.parts ++ right.parts)

theorem length_parts (e : Expr) : e.parts.length = e.size := by
  induction e with
  | int value place => rfl
  | bool value place => rfl
  | var name place => rfl
  | letIn name bound body place ihBound ihBody =>
      simp only [parts, size, List.length_cons, List.length_append, ihBound, ihBody]
      omega
  | ite condition consequent alternate place ihCondition ihConsequent ihAlternate =>
      simp only [parts, size, List.length_cons, List.length_append, ihCondition, ihConsequent, ihAlternate]
      omega
  | unary op operand place ih =>
      simp only [parts, size, List.length_cons, ih]
      omega
  | binary op left right place ihLeft ihRight =>
      simp only [parts, size, List.length_cons, List.length_append, ihLeft, ihRight]
      omega

/-- The binding that a node with the given number is, if it is one. -/
def binding? (node : Nat) : Expr -> Option Binding
  | letIn name _ _ place => some ⟨name, node, place⟩
  | _ => none

/-- The bindings of an expression in the order of its nodes, the root of which has the given number. -/
def lets (node : Nat) (e : Expr) : List Binding :=
  (e.parts.zipIdx node).filterMap (fun entry => entry.1.binding? entry.2)

theorem lets_letIn (node : Nat) (name : Text) (bound body : Expr) (place : Option Position) :
    (letIn name bound body place).lets node =
      ⟨name, node, place⟩ :: (bound.lets (node + 1) ++ body.lets (node + 1 + bound.size)) := by
  simp only [lets, parts, List.zipIdx_cons, List.zipIdx_append, List.filterMap_cons, List.filterMap_append,
    binding?, length_parts]

theorem lets_ite (node : Nat) (condition consequent alternate : Expr) (place : Option Position) :
    (ite condition consequent alternate place).lets node =
      condition.lets (node + 1) ++ consequent.lets (node + 1 + condition.size) ++
        alternate.lets (node + 1 + condition.size + consequent.size) := by
  simp only [lets, parts, List.zipIdx_cons, List.zipIdx_append, List.filterMap_cons, List.filterMap_append,
    binding?, length_parts, List.length_append, Nat.add_assoc]

theorem lets_unary (node : Nat) (op : UnaryOp) (operand : Expr) (place : Option Position) :
    (unary op operand place).lets node = operand.lets (node + 1) := by
  simp only [lets, parts, List.zipIdx_cons, List.filterMap_cons, binding?]

theorem lets_binary (node : Nat) (op : BinaryOp) (left right : Expr) (place : Option Position) :
    (binary op left right place).lets node = left.lets (node + 1) ++ right.lets (node + 1 + left.size) := by
  simp only [lets, parts, List.zipIdx_cons, List.zipIdx_append, List.filterMap_cons, List.filterMap_append,
    binding?, length_parts]

/-- The bindings are those of the nodes, in another order. -/
theorem bindings_perm (e : Expr) (node : Nat) : (e.bindings node).Perm (e.lets node) := by
  induction e generalizing node with
  | int value place => exact .nil
  | bool value place => exact .nil
  | var name place => exact .nil
  | letIn name bound body place ihBound ihBody =>
      rw [bindings, lets_letIn]
      exact List.perm_middle.trans (((ihBound _).append (ihBody _)).cons _)
  | ite condition consequent alternate place ihCondition ihConsequent ihAlternate =>
      rw [bindings, lets_ite]
      exact ((ihCondition _).append (ihConsequent _)).append (ihAlternate _)
  | unary op operand place ih =>
      rw [bindings, lets_unary]
      exact ih _
  | binary op left right place ihLeft ihRight =>
      rw [bindings, lets_binary]
      exact (ihLeft _).append (ihRight _)

end Expr

/-! ## What a run of inference reports -/

/-- A walk enters the bindings of its expression, one after another. -/
theorem Walked.binders_eq {comparison : Comparison} {env : Env Term} {node : Nat} {e : Expr}
    {books after : Books} {term : Term} (walked : Walked comparison env node e books term after) :
    after.ledger.binders = Binder.entered books.ledger.binders (e.bindings node) := by
  induction walked with
  | int => rfl
  | bool => rfl
  | var found => rfl
  | letIn ofBound ofBody boundIh bodyIh =>
      rw [Expr.bindings, Binder.entered_append, Binder.entered_cons, ← boundIh]
      exact bodyIh
  | ite ofCondition ofConsequent ofAlternate conditionIh consequentIh alternateIh =>
      rw [Expr.bindings, Binder.entered_append, Binder.entered_append, ← conditionIh, ← consequentIh]
      exact alternateIh
  | unary ofOperand ih => exact ih
  | @binary _ _ op _ _ _ _ _ afterRight _ _ ofLeft ofRight leftIh rightIh =>
      change (afterRight.settle comparison op).ledger.binders = _
      rw [Books.ledger_settle, Expr.bindings, Binder.entered_append, ← leftIh]
      exact rightIh

/-- Inference reports a binder for each binding, and nothing but their types depends on it. -/
theorem Inference.binders_eq {e : Expr} (wellScoped : e.isWellScoped = true) {comparison : Comparison}
    {inference : Inference} (inferred : e.infer comparison = .ok inference) {typing : Typing}
    (succeeded : inference.typing = .ok typing) :
    typing.binders.map TypedBinder.toBinder = Binder.entered [] (e.bindings 0) := by
  rcases e.constraints_eq_ok wellScoped comparison with ⟨root, books, walked, gathered⟩
  rcases exists_follows walked with ⟨other, found, follows⟩
  rw [Expr.infer, gathered] at inferred
  cases found.symm.trans inferred
  rw [follows.binders_eq typing succeeded]
  exact walked.binders_eq

theorem Inference.map_binding_binders {e : Expr} (wellScoped : e.isWellScoped = true)
    {comparison : Comparison} {inference : Inference} (inferred : e.infer comparison = .ok inference)
    {typing : Typing} (succeeded : inference.typing = .ok typing) :
    typing.binders.map (fun binder => binder.binding) = e.bindings 0 := by
  have entered := congrArg (List.map Binder.binding) (binders_eq wellScoped inferred succeeded)
  rwa [List.map_map, Binder.map_binding_entered] at entered

end Monotype
