import Monotype.Scoping
import Monotype.Proofs.Kinds

namespace Monotype
namespace Expr

/-!
# Free names

The names that are collected as undefined are the free names without a meaning
from outside, each at its first use.  An expression is well scoped exactly if it
has no free names.

Collecting hands the names with a meaning down to the parts of an expression and
adds what it finds to one list.  Being free is defined the other way round: the
free names of the parts are put together, and a binding takes its name away.
-/

/-- The names that an expression uses and does not bind, in the order of their uses. -/
def free : Expr -> List Text
  | int _ _ => []
  | bool _ _ => []
  | var name _ => [name]
  | letIn name bound body _ => bound.free ++ body.free.filter (fun other => other ≠ name)
  | ite condition consequent alternate _ => condition.free ++ consequent.free ++ alternate.free
  | unary _ operand _ => operand.free
  | binary _ left right _ => left.free ++ right.free

/-- Collecting notes the free names without a meaning, one after the other. -/
theorem collectUndefined_eq (e : Expr) (defined found : List Text) :
    collectUndefined defined found e =
      (e.free.filter (fun name => name ∉ defined)).foldl noteName found := by
  induction e generalizing defined found with
  | int value place => rfl
  | bool value place => rfl
  | var name place =>
      by_cases known : name ∈ defined
      · simp [collectUndefined, free, known]
      · simp [collectUndefined, free, known]
  | letIn name bound body place boundIh bodyIh =>
      -- Inside the body the bound name has a meaning, so its uses there are passed over.
      have inner : body.free.filter (fun other => other ∉ name :: defined) =
          (body.free.filter (fun other => other ≠ name)).filter (fun other => other ∉ defined) := by
        rw [List.filter_filter]
        apply List.filter_congr
        intro other _
        simp [not_or, Bool.and_comm]
      rw [collectUndefined, boundIh, bodyIh, inner, free, List.filter_append, List.foldl_append]
  | ite condition consequent alternate place conditionIh consequentIh alternateIh =>
      rw [collectUndefined, conditionIh, consequentIh, alternateIh, free, List.filter_append,
        List.filter_append, List.foldl_append, List.foldl_append]
  | unary op operand place ih =>
      rw [collectUndefined, ih, free]
  | binary op left right place leftIh rightIh =>
      rw [collectUndefined, leftIh, rightIh, free, List.filter_append, List.foldl_append]

theorem mem_foldl_noteName (names found : List Text) (probe : Text) :
    probe ∈ names.foldl noteName found ↔ probe ∈ found ∨ probe ∈ names := by
  induction names generalizing found with
  | nil => simp
  | cons name rest ih =>
      rw [List.foldl_cons, ih, noteName]
      by_cases noted : name ∈ found
      · rw [if_pos noted, List.mem_cons]
        constructor
        · rintro (earlier | later)
          · exact Or.inl earlier
          · exact Or.inr (Or.inr later)
        · rintro (earlier | rfl | later)
          · exact Or.inl earlier
          · exact Or.inl noted
          · exact Or.inr later
      · rw [if_neg noted, List.mem_append, List.mem_singleton, List.mem_cons, or_assoc]

theorem mem_undefinedNames (e : Expr) (defined : List Text) (name : Text) :
    name ∈ e.undefinedNames defined ↔ name ∈ e.free ∧ name ∉ defined := by
  rw [undefinedNames, collectUndefined_eq, mem_foldl_noteName, List.mem_filter]
  simp

theorem isWellScoped_iff (e : Expr) : e.isWellScoped = true ↔ e.free = [] := by
  rw [isWellScoped, List.isEmpty_iff, List.eq_nil_iff_forall_not_mem, List.eq_nil_iff_forall_not_mem]
  simp only [mem_undefinedNames, List.not_mem_nil, not_false_eq_true, and_true]

/-! ## First uses -/

/-- Noting names one after the other keeps each of them at its first occurrence. -/
theorem foldl_noteName (names : List Text) : names.foldl noteName [] = names.eraseDups := by
  induction names using List.reverseRecOn with
  | nil => rfl
  | append_singleton names last ih =>
      rw [List.foldl_append, ih, Kinds.eraseDups_concat]
      rfl

theorem undefinedNames_eq_eraseDups (e : Expr) (defined : List Text) :
    e.undefinedNames defined = (e.free.filter (fun name => name ∉ defined)).eraseDups := by
  rw [undefinedNames, collectUndefined_eq, foldl_noteName]

/-- The undefined names are the free names in the order of their uses, without those that have a
meaning from outside and each of them only once, at its first use.  So the names with a meaning can
as well be taken away from what is undefined without them. -/
theorem undefinedNames_first_uses (e : Expr) (defined : List Text) :
    e.undefinedNames defined = (e.free.filter (fun name => name ∉ defined)).eraseDups ∧
      (e.undefinedNames defined).Nodup ∧
      e.undefinedNames defined = (e.undefinedNames []).filter (fun name => name ∉ defined) := by
  refine ⟨undefinedNames_eq_eraseDups e defined, ?_, ?_⟩
  · rw [undefinedNames_eq_eraseDups]
    exact Kinds.nodup_eraseDups _
  · have everything : e.free.filter (fun name => name ∉ ([] : List Text)) = e.free := by simp
    rw [undefinedNames_eq_eraseDups, undefinedNames_eq_eraseDups, everything, Kinds.eraseDups_filter]

end Expr
end Monotype
