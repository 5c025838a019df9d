import Monotype.Inference
import Monotype.Proofs.Solution
import Monotype.Proofs.Valuation.Extension

namespace Monotype

/-!
# Inference finds the derivation

Solutions of the equations of a program are valuations, restricted to the keys that
occur.  A program has at most one of them, so the naming of its classes succeeds
exactly if it has a derivation, and what is read back is that derivation.
-/

/-! ## Solutions and valuations -/

/-- A valuation that has no opinion of its own. -/
def Valuation.base : Valuation where
  type key := if key = (Term.ground .bool).key then .bool else .int
  type_ground := by
    intro ground
    cases ground <;> rfl

namespace Equation

variable {equations : List Equation}

/-- The valuation that extends a solution to all keys. -/
def Solves.valuation {type : Text -> Option Ground} (solves : Solves equations type) : Valuation where
  type key := (type key).getD (Valuation.base.type key)
  type_ground := by
    intro ground
    cases given : type (Term.ground ground).key with
    | some other =>
        have occurs := (solves.domain (Term.ground ground).key).mp (by rw [given]; rfl)
        have self := solves.ground ground occurs
        exact Option.some.inj (given.symm.trans self)
    | none => exact Valuation.base.type_ground ground

theorem Solves.eq_valuation {type : Text -> Option Ground} (solves : Solves equations type) {key : Text}
    (occurs : Occurs equations key) : type key = some (solves.valuation.type key) := by
  rcases Option.isSome_iff_exists.mp ((solves.domain key).mpr occurs) with ⟨given, found⟩
  change type key = some ((type key).getD _)
  rw [found, Option.getD_some]

theorem Solves.valuation_sides {type : Text -> Option Ground} (solves : Solves equations type)
    {equation : Equation} (member : equation ∈ equations) :
    solves.valuation.typeOf equation.left = solves.valuation.typeOf equation.right := by
  have left := solves.eq_valuation ⟨equation, member, Or.inl rfl⟩
  have right := solves.eq_valuation ⟨equation, member, Or.inr rfl⟩
  exact Option.some.inj (left.symm.trans ((solves.sides equation member).trans right))

end Equation

/-! ## Programs have at most one solution -/

namespace Books

def equations (books : Books) : List Equation :=
  Inference.equations books.ledger.constraints

theorem mem_equations_iff (books : Books) (equation : Equation) :
    equation ∈ books.equations ↔
      exists constraint, constraint ∈ books.ledger.constraints ∧ constraint.toEquation = equation :=
  List.mem_map

theorem satisfies_of_solves {books : Books} {type : Text -> Option Ground}
    (solves : Equation.Solves books.equations type) : solves.valuation.Satisfies books :=
  fun constraint listed =>
    solves.valuation_sides ((books.mem_equations_iff _).mpr ⟨constraint, listed, rfl⟩)

theorem solves_of_satisfies {books : Books} {valuation : Valuation}
    (satisfied : valuation.Satisfies books) :
    Equation.Solves books.equations (Equation.restrict books.equations valuation.type) := by
  apply Equation.solves_restrict
  · intro ground _
    exact valuation.type_ground ground
  · intro equation member
    rcases (books.mem_equations_iff equation).mp member with ⟨constraint, listed, rfl⟩
    exact satisfied constraint listed

theorem determined_empty : ({} : Books).Determined :=
  fun _ _ _ _ _ listed => nomatch listed

theorem Determined.solves_unique {books : Books} (determined : books.Determined)
    {first second : Text -> Option Ground} (firstSolves : Equation.Solves books.equations first)
    (secondSolves : Equation.Solves books.equations second) : first = second := by
  have firstSatisfied := satisfies_of_solves firstSolves
  have secondSatisfied := satisfies_of_solves secondSolves
  have agree := determined _ _ firstSatisfied secondSatisfied
  funext key
  by_cases occurs : Equation.Occurs books.equations key
  · rw [firstSolves.eq_valuation occurs, secondSolves.eq_valuation occurs]
    rcases occurs with ⟨equation, member, side⟩
    rcases (books.mem_equations_iff equation).mp member with ⟨constraint, listed, rfl⟩
    have leftSame := agree constraint listed
    rcases side with rfl | rfl
    · exact congrArg some leftSame
    · have firstSides := firstSatisfied constraint listed
      have secondSides := secondSatisfied constraint listed
      exact congrArg some (firstSides.symm.trans (leftSame.trans secondSides))
  · have firstNone := mt (firstSolves.domain key).mp occurs
    have secondNone := mt (secondSolves.domain key).mp occurs
    rw [Option.not_isSome_iff_eq_none.mp firstNone, Option.not_isSome_iff_eq_none.mp secondNone]

/-- Equations that leave no choice have exactly one solution if some types satisfy them. -/
theorem Determined.existsUnique_solves {books : Books} (determined : books.Determined)
    {valuation : Valuation} (satisfied : valuation.Satisfies books) :
    ∃! type, Equation.Solves books.equations type :=
  ⟨_, solves_of_satisfies satisfied,
    fun _ solves => determined.solves_unique solves (solves_of_satisfies satisfied)⟩

end Books

namespace Walked

variable {comparison : Comparison} {e : Expr} {root : Term} {books : Books}

/-- A program with a derivation has exactly one solution. -/
theorem existsUnique_solves (walked : Walked comparison [] 0 e {} root books) {type : Ground}
    (derivation : Derivation comparison .empty e type) :
    ∃! type, Equation.Solves books.equations type := by
  -- The walk starts without terms, so any valuation will do to begin with.
  have satisfiedAtFirst : Valuation.base.Satisfies {} := fun _ listed => nomatch listed
  rcases walked.extensible _ _ Books.consistent_empty (Books.scopes_empty _) satisfiedAtFirst
    derivation with ⟨valuation, _, satisfied, _⟩
  exact (walked.determined Books.determined_empty).existsUnique_solves satisfied

end Walked

/-! ## Reading the types back -/

namespace Inference

/-- Terms that are accounted for have the types that a naming gives to their keys. -/
theorem typeOf_eq_ok {books : Books} {naming : Naming}
    (solves : Equation.Solves books.equations naming.find?) {term : Term}
    (accounted : books.Accounts term) :
    typeOf naming term = .ok (solves.valuation.typeOf term) := by
  rcases accounted.mentioned with isGround | ⟨constraint, listed, side⟩
  · cases term with
    | ground type => exact congrArg Except.ok (solves.valuation.typeOf_ground type).symm
    | unknown number label => cases isGround
    | binder name index => cases isGround
  · have occurs : Equation.Occurs books.equations term.key := by
      refine ⟨constraint.toEquation, (books.mem_equations_iff _).mpr ⟨constraint, listed, rfl⟩, ?_⟩
      exact side.imp (congrArg Term.key) (congrArg Term.key)
    cases shape : term.ground? with
    | some type =>
        cases term with
        | ground other => exact congrArg Except.ok (solves.valuation.typeOf_ground other).symm
        | unknown number label => cases shape
        | binder name index => cases shape
    | none =>
        rw [typeOf, shape, solves.eq_valuation occurs]
        rfl

theorem nodeTypes_eq_ok {naming : Naming} {valuation : Valuation} {entries : List (Nat × Term)}
    (reads : forall entry, entry ∈ entries -> typeOf naming entry.2 = .ok (valuation.typeOf entry.2)) :
    nodeTypes naming entries =
      .ok (entries.map (fun entry => (entry.1, valuation.typeOf entry.2))) := by
  induction entries with
  | nil => rfl
  | cons entry rest ih =>
      rcases entry with ⟨node, term⟩
      rw [nodeTypes, reads (node, term) List.mem_cons_self,
        ih (fun later member => reads later (List.mem_cons_of_mem _ member))]
      rfl

theorem typedBinders_eq_ok {naming : Naming} {valuation : Valuation} {binders : List Binder}
    (reads : forall binder, binder ∈ binders ->
      typeOf naming binder.term = .ok (valuation.typeOf binder.term)) :
    typedBinders naming binders =
      .ok (binders.map (fun binder => ⟨binder, valuation.typeOf binder.term⟩)) := by
  induction binders with
  | nil => rfl
  | cons binder rest ih =>
      rw [typedBinders, reads binder List.mem_cons_self,
        ih (fun later member => reads later (List.mem_cons_of_mem _ member))]
      rfl

theorem readBack_eq_ok {books : Books} {root : Term} {naming : Naming} (consistent : books.Consistent)
    (accounted : books.Accounts root) (solves : Equation.Solves books.equations naming.find?) :
    readBack (books.ledger.close books.supply root) naming = .ok {
      type := solves.valuation.typeOf root
      terms := naming
      nodeTypes := ⟨solves.valuation.nodeTypes books⟩
      binders := books.ledger.binders.map
        (fun binder => ⟨binder, solves.valuation.typeOf binder.term⟩) } := by
  have nodes := nodeTypes_eq_ok
    (fun entry listed => typeOf_eq_ok solves (consistent.nodes entry listed))
  have binders := typedBinders_eq_ok
    (fun binder listed => typeOf_eq_ok solves (consistent.binders binder listed))
  unfold readBack Ledger.close
  rw [nodes, binders, typeOf_eq_ok solves accounted]
  rfl

theorem ofConstraints_of_fault {gathered : ConstraintSet} {fault : NamingFault}
    (failed : (Solution.ofEquations (equations gathered.constraints)).naming = .error fault) :
    ofConstraints gathered = .ok ⟨gathered.constraints,
      (Solution.ofEquations (equations gathered.constraints)).classes, .error fault⟩ := by
  unfold ofConstraints
  simp only [failed]

theorem ofConstraints_of_naming {gathered : ConstraintSet} {naming : Naming} {typing : Typing}
    (named : (Solution.ofEquations (equations gathered.constraints)).naming = .ok naming)
    (read : readBack gathered naming = .ok typing) :
    ofConstraints gathered = .ok ⟨gathered.constraints,
      (Solution.ofEquations (equations gathered.constraints)).classes, .ok typing⟩ := by
  unfold ofConstraints
  simp only [named, read]

/-- The inference has solved the equations in the books and read the binders back. -/
structure Follows (inference : Inference) (books : Books) : Prop where
  classes_eq : inference.classes = ClassMap.ofEquations books.equations
  naming_eq : forall fault, inference.typing = .error fault ->
    (Solution.ofEquations books.equations).naming = .error fault
  binders_eq : forall typing, inference.typing = .ok typing ->
    typing.binders.map TypedBinder.toBinder = books.ledger.binders

/-- The types that a walk leaves to be found can always be looked for. -/
theorem exists_follows {comparison : Comparison} {e : Expr} {root : Term} {books : Books}
    (walked : Walked comparison [] 0 e {} root books) :
    exists inference, ofConstraints (books.ledger.close books.supply root) = .ok inference ∧
      inference.Follows books := by
  rcases walked.consistent Books.consistent_empty (Books.scopes_empty _) with ⟨consistent, accounted⟩
  cases outcome : (Solution.ofEquations books.equations).naming with
  | error fault =>
      refine ⟨_, ofConstraints_of_fault outcome, rfl, ?_, ?_⟩
      · intro other failed
        cases failed
        exact outcome
      · intro typing succeeded
        cases succeeded
  | ok naming =>
      have read := readBack_eq_ok consistent accounted (Solution.solves_naming outcome)
      refine ⟨_, ofConstraints_of_naming outcome read, rfl, ?_, ?_⟩
      · intro fault failed
        cases failed
      · intro typing succeeded
        cases succeeded
        simp only [List.map_map]
        exact List.map_id _

end Inference

/-! ## Inference and derivations -/

namespace Typing

/-- The typing tells what the derivation tells: the types of the nodes, and of the
bound expressions of the bindings. -/
structure Reports {comparison : Comparison} {e : Expr} (typing : Typing)
    (derivation : Derivation comparison .empty e typing.type) : Prop where
  nodeTypes_eq : typing.nodeTypes.entries = derivation.nodeTypes 0
  bindings_eq : typing.binders.map (fun binder => (binder.name, binder.node, binder.type)) =
    derivation.bindings 0

end Typing

namespace Expr

variable {e : Expr}

/-- Inference of a well-scoped program is always carried out.  It ends with types that
make up a derivation, or there is no derivation. -/
theorem infer_cases (wellScoped : e.isWellScoped = true) (comparison : Comparison) :
    exists inference, e.infer comparison = .ok inference ∧
      ((exists typing, inference.typing = .ok typing ∧
          exists derivation : Derivation comparison .empty e typing.type, typing.Reports derivation) ∨
        (exists fault, inference.typing = .error fault) ∧
          forall type, IsEmpty (Derivation comparison .empty e type)) := by
  rcases e.constraints_eq_ok wellScoped comparison with ⟨root, books, walked, gathered⟩
  rcases walked.consistent Books.consistent_empty (Books.scopes_empty _) with ⟨consistent, accounted⟩
  unfold infer
  rw [gathered]
  cases outcome : (Solution.ofEquations books.equations).naming with
  | error fault =>
      refine ⟨_, Inference.ofConstraints_of_fault outcome, Or.inr ⟨⟨fault, rfl⟩, ?_⟩⟩
      intro type
      refine ⟨fun derivation => ?_⟩
      exact Solution.not_existsUnique_of_fault outcome (walked.existsUnique_solves derivation)
  | ok naming =>
      have solves := Solution.solves_naming outcome
      have read := Inference.readBack_eq_ok consistent accounted solves
      refine ⟨_, Inference.ofConstraints_of_naming outcome read, Or.inl ⟨_, rfl, ?_⟩⟩
      rcases walked.derives _ _ (Books.satisfies_of_solves solves) (Books.vacant_empty _ _) rfl with
        ⟨derivation, nodes, bindings⟩
      refine ⟨derivation, nodes, ?_⟩
      rw [List.map_map]
      exact bindings

theorem derivation_of_infer {comparison : Comparison} (wellScoped : e.isWellScoped = true)
    {inference : Inference} (inferred : e.infer comparison = .ok inference) {typing : Typing}
    (succeeded : inference.typing = .ok typing) :
    Nonempty (Derivation comparison .empty e typing.type) := by
  rcases infer_cases wellScoped comparison with ⟨other, inferred', outcome⟩
  cases inferred.symm.trans inferred'
  rcases outcome with ⟨other, succeeded', derivation, _⟩ | ⟨⟨fault, failed⟩, _⟩
  · cases succeeded.symm.trans succeeded'
    exact ⟨derivation⟩
  · cases succeeded.symm.trans failed

/-- Inference of a well-scoped program succeeds with a type exactly if the empty context
derives it.  The reported types are then those of the derivation, one for every node. -/
theorem infer_ok_iff_derivation (e : Expr) (comparison : Comparison)
    (wellScoped : e.isWellScoped = true) :
    exists inference, e.infer comparison = .ok inference ∧
      (forall type, (exists typing, inference.typing = .ok typing ∧ typing.type = type) ↔
        Nonempty (Derivation comparison .empty e type)) ∧
      (forall typing, inference.typing = .ok typing ->
        forall derivation : Derivation comparison .empty e typing.type,
          typing.Reports derivation ∧ typing.nodeTypes.keys.Perm (List.range e.size)) := by
  rcases infer_cases wellScoped comparison with ⟨inference, inferred, outcome⟩
  refine ⟨inference, inferred, ?_⟩
  rcases outcome with ⟨typing, succeeded, derivation, reports⟩ | ⟨⟨fault, failed⟩, underivable⟩
  · constructor
    · intro type
      constructor
      · rintro ⟨other, succeeded', rfl⟩
        rw [succeeded] at succeeded'
        cases succeeded'
        exact ⟨derivation⟩
      · rintro ⟨other⟩
        exact ⟨typing, succeeded, derivation.type_unique other⟩
    · intro other succeeded' otherDerivation
      rw [succeeded] at succeeded'
      cases succeeded'
      rw [otherDerivation.eq_of_type_eq derivation]
      refine ⟨reports, ?_⟩
      rw [List.range_eq_range', Table.keys, reports.nodeTypes_eq]
      exact derivation.nodes_perm 0
  · constructor
    · intro type
      constructor
      · rintro ⟨typing, succeeded, _⟩
        rw [failed] at succeeded
        cases succeeded
      · rintro ⟨derivation⟩
        exact ((underivable type).false derivation).elim
    · intro typing succeeded
      rw [failed] at succeeded
      cases succeeded

/-- An inner binding of a name has another type than the outer one, and a quotient by
zero stands where it is not needed. -/
def shadowed : Expr :=
  letIn "x" (int 0 none)
    (letIn "x" (binary .eql (var "x" none) (int 0 none) none)
      (ite (binary .or (var "x" none)
          (binary .lt (binary .div (int 1 none) (int 0 none) none) (int 1 none) none) none)
        (int 2 none) (int 3 none) none) none) none

def shadowedDerivation : Derivation .int .empty shadowed .int :=
  .letIn .int
    (.letIn (.binary .equality (.var rfl) .int)
      (.ite (.binary (.logical (by decide)) (.var rfl)
          (.binary (.ordering (by decide) (fun _ => rfl))
            (.binary (.arithmetic (by decide)) .int .int) .int))
        .int .int))

theorem infer_shadowed : shadowed.isWellScoped = true ∧
    exists inference typing, shadowed.infer .int = .ok inference ∧
      inference.typing = .ok typing ∧ typing.type = .int ∧
      typing.binders.map (fun binder => (binder.name, binder.node, binder.type)) =
        [(Text.ofString "x", 0, .int), (Text.ofString "x", 2, .bool)] := by
  have wellScoped : shadowed.isWellScoped = true := by decide
  refine ⟨wellScoped, ?_⟩
  rcases infer_ok_iff_derivation shadowed .int wellScoped with ⟨inference, inferred, succeeds, reports⟩
  rcases (succeeds .int).mpr ⟨shadowedDerivation⟩ with ⟨⟨type, terms, nodeTypes, binders⟩, succeeded, rfl⟩
  have bindings := (reports _ succeeded shadowedDerivation).1.bindings_eq
  exact ⟨inference, _, inferred, succeeded, rfl, bindings⟩

end Expr

end Monotype
