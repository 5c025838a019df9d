import Monotype.Proofs.Inference

namespace Monotype

/-!
# Unbound names

The walk over a program looks a name up in the scopes around it, while the check of scopes
passes the names of these scopes down as a list.  Both meet the free names of the program in the
order of their uses, so a walk stops at the first name that the check of scopes reports, and if
there is none, then nothing stops it.
-/

/-- Whether a name stands for nothing. -/
def Env.lacks {V : Type} (env : Env V) (name : Text) : Bool :=
  (env.find? name).isNone

namespace Expr

/-! ## The first name -/

theorem head?_foldl_noteName (names found : List Text) :
    (names.foldl noteName found).head? = found.head?.or names.head? := by
  induction names generalizing found with
  | nil => rw [List.foldl_nil, List.head?_nil, Option.or_none]
  | cons name rest ih =>
      rw [List.foldl_cons, ih, noteName]
      cases found with
      | nil => rfl
      | cons first later =>
          split <;> rfl

theorem head?_undefinedNames (e : Expr) (defined : List Text) :
    (e.undefinedNames defined).head? = e.free.find? (fun name => name ∉ defined) := by
  rw [undefinedNames, collectUndefined_eq, head?_foldl_noteName, List.head?_nil, Option.none_or,
    List.head?_filter]

/-- The free names of a body that a binding around it leaves without a meaning. -/
theorem find?_lacks_bind (e : Expr) {V : Type} (env : Env V) (name : Text) (value : V) :
    e.free.find? (env.bind name value).lacks =
      (e.free.filter (fun other => other ≠ name)).find? env.lacks := by
  rw [List.find?_filter]
  congr 1
  funext other
  rw [Env.lacks, Env.find?_bind, Env.lacks, Bool.eq_iff_iff]
  by_cases same : name = other
  · simp [same]
  · simp [same, Ne.symm same]

end Expr

/-! ## Walks that stop -/

namespace Gather

theorem bind_of_error {A B : Type} {first : Gather A} (next : A -> Gather B) {books between : Books}
    {unbound : Unbound} (stopped : first books = .error unbound between) :
    (first >>= next) books = .error unbound between := by
  change EStateM.bind first next books = _
  unfold EStateM.bind
  rw [stopped]

/-- A walk is not stopped by an expression whose free names all stand for terms. -/
theorem exists_walk_of_find?_eq_none (comparison : Comparison) {env : Env Term} (node : Nat) {e : Expr}
    (known : e.free.find? env.lacks = none) (books : Books) :
    exists term after, walk comparison env node e books = .ok term after := by
  apply exists_walk_eq_ok comparison node
  intro name free
  have found := List.find?_eq_none.mp known name free
  rwa [Env.lacks, Option.isNone_iff_eq_none, ← ne_eq, Option.ne_none_iff_exists'] at found

/-- A walk stops at the first free name that stands for nothing. -/
theorem exists_walk_eq_error (comparison : Comparison) {env : Env Term} (node : Nat) {e : Expr}
    {name : Text} (first : e.free.find? env.lacks = some name) (books : Books) :
    exists after, walk comparison env node e books = .error ⟨name⟩ after := by
  induction e generalizing env node books with
  | int value place => cases first
  | bool value place => cases first
  | var other place =>
      have lacking := List.find?_some first
      rw [Env.lacks, Option.isNone_iff_eq_none] at lacking
      rw [List.mem_singleton.mp (List.mem_of_find?_eq_some first)] at lacking ⊢
      rw [walk, lacking]
      exact ⟨_, rfl⟩
  | letIn binder bound body place boundIh bodyIh =>
      rw [Expr.free, List.find?_append] at first
      rcases Option.or_eq_some_iff.mp first with inBound | ⟨known, inBody⟩
      · rcases boundIh (node + 1) inBound books with ⟨_, stopped⟩
        rw [walk, bind_of_error _ stopped]
        exact ⟨_, rfl⟩
      · rcases exists_walk_of_find?_eq_none comparison (node + 1) known books with
          ⟨boundTerm, afterBound, ranBound⟩
        rw [walk, bind_of_ok _ ranBound, bind_of_ok _ (enter_eq ..), bind_of_ok _ (equate_eq ..)]
        rw [← body.find?_lacks_bind env binder (afterBound.ledger.binderTerm binder)] at inBody
        rcases bodyIh (node + 1 + bound.size) inBody _ with ⟨_, stopped⟩
        rw [bind_of_error _ stopped]
        exact ⟨_, rfl⟩
  | ite condition consequent alternate place conditionIh consequentIh alternateIh =>
      rw [Expr.free, List.append_assoc, List.find?_append, List.find?_append] at first
      rcases Option.or_eq_some_iff.mp first with inCondition | ⟨known, first⟩
      · rcases conditionIh (node + 1) inCondition books with ⟨_, stopped⟩
        rw [walk, bind_of_error _ stopped]
        exact ⟨_, rfl⟩
      · rcases exists_walk_of_find?_eq_none comparison (node + 1) known books with
          ⟨_, afterCondition, ranCondition⟩
        rw [walk, bind_of_ok _ ranCondition]
        rcases Option.or_eq_some_iff.mp first with inConsequent | ⟨known, inAlternate⟩
        · rcases consequentIh (node + 1 + condition.size) inConsequent afterCondition with ⟨_, stopped⟩
          rw [bind_of_error _ stopped]
          exact ⟨_, rfl⟩
        · rcases exists_walk_of_find?_eq_none comparison (node + 1 + condition.size) known
            afterCondition with ⟨_, afterConsequent, ranConsequent⟩
          rcases alternateIh (node + 1 + condition.size + consequent.size) inAlternate
            afterConsequent with ⟨_, stopped⟩
          rw [bind_of_ok _ ranConsequent, bind_of_error _ stopped]
          exact ⟨_, rfl⟩
  | unary op operand place ih =>
      rcases ih (node + 1) first books with ⟨_, stopped⟩
      rw [walk, bind_of_error _ stopped]
      exact ⟨_, rfl⟩
  | binary op left right place leftIh rightIh =>
      rw [Expr.free, List.find?_append] at first
      rcases Option.or_eq_some_iff.mp first with inLeft | ⟨known, inRight⟩
      · rcases leftIh (node + 1) inLeft books with ⟨_, stopped⟩
        rw [walk, bind_of_error _ stopped]
        exact ⟨_, rfl⟩
      · rcases exists_walk_of_find?_eq_none comparison (node + 1) known books with
          ⟨_, afterLeft, ranLeft⟩
        rcases rightIh (node + 1 + left.size) inRight afterLeft with ⟨_, stopped⟩
        rw [walk, bind_of_ok _ ranLeft, bind_of_error _ stopped]
        exact ⟨_, rfl⟩

end Gather

/-! ## Programs -/

namespace Expr

variable {e : Expr}

theorem constraints_eq_error {name : Text} {more : List Text}
    (undefined : e.undefinedNames [] = name :: more) (comparison : Comparison) :
    e.constraints comparison = .error ⟨name⟩ := by
  have first : e.free.find? (Env.lacks ([] : Env Term)) = some name := by
    have head := e.head?_undefinedNames []
    rw [undefined] at head
    exact head.symm
  rcases Gather.exists_walk_eq_error comparison 0 first {} with ⟨after, stopped⟩
  unfold constraints Gather.program
  rw [Gather.bind_of_error _ stopped]

/-- If a program has no undefined names, then its constraints are generated and inference is carried
out.  If it has some, then both fail, and their complaint names the first of them. -/
theorem infer_by_undefinedNames (e : Expr) (comparison : Comparison) :
    match e.undefinedNames [] with
    | [] =>
        (exists gathered, e.constraints comparison = .ok gathered) ∧
          exists inference, e.infer comparison = .ok inference
    | name :: _ =>
        e.constraints comparison = .error ⟨name⟩ ∧
          e.infer comparison = .error (.unbound ⟨name⟩) ∧
          Unbound.message ⟨name⟩ =
            "Unbound variable '" ++ name ++ "' reached constraint generation" ∧
          Inference.Failure.message (.unbound ⟨name⟩) =
            "Unbound variable '" ++ name ++ "' reached constraint generation" := by
  cases undefined : e.undefinedNames [] with
  | nil =>
      have wellScoped : e.isWellScoped = true := List.isEmpty_iff.mpr undefined
      rcases e.constraints_eq_ok wellScoped comparison with ⟨root, books, _, gathered⟩
      rcases infer_cases wellScoped comparison with ⟨inference, inferred, _⟩
      exact ⟨⟨_, gathered⟩, inference, inferred⟩
  | cons name more =>
      have stopped := constraints_eq_error undefined comparison
      have wording : Unbound.message ⟨name⟩ =
          "Unbound variable '" ++ name ++ "' reached constraint generation" := by
        simp only [Unbound.message, Text.quoted, List.append_assoc]
        rfl
      refine ⟨stopped, ?_, wording, wording⟩
      rw [infer, stopped]

end Expr

end Monotype
