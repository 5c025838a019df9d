import Monotype.Proofs.Reached

namespace Monotype

/-!
# Evaluation and undefined names

What an expression evaluates to depends on what its free names stand for and on nothing else in the
environment: a binding is seen by its body alone, whatever its name stood for outside.  If evaluation
comes upon a name that stands for nothing, then no binding between the whole expression and the use
has this name, so it is one of the names that are reported as undefined.
-/

namespace Env

variable {V : Type}

/-- The names that stand for something, scope by scope. -/
def names (env : Env V) : List Text :=
  env.flatMap Table.keys

theorem find?_eq_none_iff (env : Env V) (name : Text) : env.find? name = none ↔ name ∉ env.names := by
  rw [find?, List.findSome?_eq_none_iff, names, List.mem_flatMap, not_exists]
  simp only [Table.find?, Table.lookup?_eq_none_iff, not_and, Table.keys]

/-- The given names stand for the same in both environments, or for nothing in both. -/
def AgreeOn (names : List Text) (env other : Env V) : Prop :=
  forall name, name ∈ names -> env.find? name = other.find? name

namespace AgreeOn

variable {names : List Text} {env other : Env V}

theorem mono {fewer : List Text} (agree : AgreeOn names env other) (subset : fewer ⊆ names) :
    AgreeOn fewer env other :=
  fun name member => agree name (subset member)

/-- Inside a binding the bound name need not have stood for the same outside. -/
theorem bind {name : Text} (agree : AgreeOn (names.filter (fun probe => probe ≠ name)) env other)
    (value : V) : AgreeOn names (env.bind name value) (other.bind name value) := by
  intro probe member
  rw [find?_bind, find?_bind]
  by_cases same : name = probe
  · rw [if_pos same, if_pos same]
  · rw [if_neg same, if_neg same]
    exact agree probe (List.mem_filter.mpr ⟨member, decide_eq_true (Ne.symm same)⟩)

end AgreeOn

end Env

namespace Expr

/-! ## Two environments -/

/-- Environments that agree on the free names of an expression give it the same value or the same
fault. -/
theorem evaluate_congr {e : Expr} {env other : Env Value} (agree : Env.AgreeOn e.free env other) :
    e.evaluate env = e.evaluate other := by
  induction e generalizing env other with
  | int value place => rfl
  | bool value place => rfl
  | var name place => rw [evaluate, evaluate, agree name (List.mem_singleton.mpr rfl)]
  | letIn name bound body place boundIh bodyIh =>
      have inBound := agree.mono (List.subset_append_left bound.free _)
      have inBody := agree.mono (List.subset_append_right bound.free _)
      rw [evaluate, evaluate, boundIh inBound]
      congr 1
      funext value
      exact bodyIh (inBody.bind value)
  | ite condition consequent alternate place conditionIh consequentIh alternateIh =>
      rw [free, List.append_assoc] at agree
      have inBranches := agree.mono (List.subset_append_right condition.free _)
      have ofCondition := conditionIh (agree.mono (List.subset_append_left _ _))
      have ofConsequent := consequentIh (inBranches.mono (List.subset_append_left _ _))
      have ofAlternate := alternateIh (inBranches.mono (List.subset_append_right _ _))
      simp only [evaluate, ofCondition, ofConsequent, ofAlternate]
  | unary op operand place ih =>
      cases op <;> simp only [evaluate, ih agree]
  | binary op left right place leftIh rightIh =>
      have ofLeft := leftIh (agree.mono (List.subset_append_left _ _))
      have ofRight := rightIh (agree.mono (List.subset_append_right _ _))
      simp only [evaluate, ofLeft, ofRight]

/-! ## Names that stand for nothing -/

/-- The name is free in the expression and stands for nothing in its environment. -/
def Lacks (name : Text) (call : Env Value × Expr) : Prop :=
  name ∈ call.2.free ∧ call.1.find? name = none

/-- What a part lacks is lacking in the whole: the name of a binding stands for a value in the body. -/
theorem Calls.lacks {caller callee : Env Value × Expr} (calls : Calls caller callee) {name : Text}
    (lacks : Lacks name callee) : Lacks name caller := by
  rcases lacks with ⟨member, absent⟩
  cases calls with
  | bound => exact ⟨List.mem_append_left _ member, absent⟩
  | @body _ binder _ body =>
      rw [Env.find?_bind] at absent
      by_cases same : binder = name
      · rw [if_pos same] at absent
        cases absent
      · rw [if_neg same] at absent
        have kept : name ∈ body.free.filter (fun other => other ≠ binder) :=
          List.mem_filter.mpr ⟨member, decide_eq_true (Ne.symm same)⟩
        exact ⟨List.mem_append_right _ kept, absent⟩
  | condition => exact ⟨List.mem_append_left _ (List.mem_append_left _ member), absent⟩
  | consequent _ => exact ⟨List.mem_append_left _ (List.mem_append_right _ member), absent⟩
  | alternate _ => exact ⟨List.mem_append_right _ member, absent⟩
  | operand => exact ⟨member, absent⟩
  | left => exact ⟨List.mem_append_left _ member, absent⟩
  | right _ _ => exact ⟨List.mem_append_right _ member, absent⟩

theorem Reaches.lacks {caller callee : Env Value × Expr} (reaches : Reaches caller callee) {name : Text}
    (lacks : Lacks name callee) : Lacks name caller := by
  induction reaches using Relation.ReflTransGen.head_induction_on with
  | refl => exact lacks
  | head calls _ ih => exact calls.lacks ih

/-- A complaint about an undefined name is about a name that the whole expression lacks. -/
theorem lacks_of_evaluate {e : Expr} {env : Env Value} {fault : EvalFault}
    (failed : e.evaluate env = .error fault) (undefined : fault.kind = .undefinedVariable) :
    exists name, fault = .undefinedName name ∧ Lacks name (env, e) := by
  rcases (evaluate_eq_error_iff env e).mp failed with ⟨callee, reaches, raises⟩
  cases raises with
  | @name _ name _ absent => exact ⟨name, rfl, reaches.lacks ⟨List.mem_singleton.mpr rfl, absent⟩⟩
  | _ => cases undefined

/-- Two environments in which the undefined names of an expression stand for the same, or for nothing,
give it the same value or the same fault.  If evaluation fails because of an undefined name, then this
name is reported as undefined, given the names of the environment. -/
theorem evaluate_by_undefinedNames (e : Expr) :
    (forall env other : Env Value,
      (forall name, name ∈ e.undefinedNames [] -> env.find? name = other.find? name) ->
        e.evaluate env = e.evaluate other) ∧
    (forall (env : Env Value) (fault : EvalFault), e.evaluate env = .error fault ->
      fault.kind = .undefinedVariable ->
        exists name, fault.message = "undefined variable '" ++ name ++ "'" ∧
          fault = .undefinedName name ∧ name ∈ e.undefinedNames env.names) := by
  constructor
  · intro env other agree
    apply evaluate_congr
    intro name member
    exact agree name ((e.mem_undefinedNames [] name).mpr ⟨member, List.not_mem_nil⟩)
  · intro env fault failed undefined
    rcases lacks_of_evaluate failed undefined with ⟨name, rfl, member, absent⟩
    have opening : ("undefined variable '" : Text) = "undefined variable " ++ "'" := by decide +kernel
    refine ⟨name, ?_, rfl, ?_⟩
    · simp only [EvalFault.message, Text.quoted, opening, List.append_assoc]
    · exact (e.mem_undefinedNames env.names name).mpr ⟨member, (env.find?_eq_none_iff name).mp absent⟩

/-- The outer meaning of `x` is hidden, the use of `z` is left out, and the use of `w` is reached. -/
def partlyDefined : Expr :=
  letIn "x" (var "y" none)
    (binary .add (var "x" none)
      (ite (binary .lt (var "x" none) (int 0 none) none) (var "z" none) (var "w" none) none) none) none

theorem evaluate_partlyDefined :
    let env : Env Value := Env.ofList [("y", .int 3), ("x", .bool true)]
    let other : Env Value := Env.ofList [("v", .int 0), ("y", .int 3)]
    partlyDefined.undefinedNames [] = (["y", "z", "w"] : List Text) ∧
      partlyDefined.evaluate env = partlyDefined.evaluate other ∧
      partlyDefined.evaluate env = .error (.undefinedName "w") ∧
      exists name, EvalFault.message (.undefinedName "w") = "undefined variable '" ++ name ++ "'" ∧
        EvalFault.undefinedName "w" = .undefinedName name ∧
        name ∈ partlyDefined.undefinedNames env.names := by
  intro env other
  have names : partlyDefined.undefinedNames [] = (["y", "z", "w"] : List Text) := by decide +kernel
  have failed : partlyDefined.evaluate env = .error (.undefinedName "w") := by decide +kernel
  refine ⟨names, ?_, failed, (evaluate_by_undefinedNames partlyDefined).2 env _ failed rfl⟩
  apply (evaluate_by_undefinedNames partlyDefined).1
  rw [names]
  decide +kernel

end Expr

end Monotype
