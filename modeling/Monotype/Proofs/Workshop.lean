import Monotype.Proofs.Inference

namespace Monotype

/-!
# Generators that are used again

A generator keeps its equations from program to program, and generators in one workshop draw on one
supply of unknowns.  Programs still do not get mixed up: a walk hands out terms that its own books
have never known, and whatever other generators draw from the supply in between is lost for it, but
changes nothing in its books.  So the equations of a generator have a solution exactly if each of its
programs has types of its own, and the solution gives them back.

The terms that the books hold for nodes may well be replaced, since a program can be walked over
twice.  But they are written only, never read, so that a walk can be compared with one whose books
hold no terms for nodes at all.
-/

/-! ## One generator -/

/-- The books with other terms for the nodes. -/
def Books.withNodes (books : Books) (nodeTerms : Table Nat Term) : Books :=
  { books with ledger := { books.ledger with nodeTerms := nodeTerms } }

theorem Books.settle_withNodes (books : Books) (nodeTerms : Table Nat Term) (comparison : Comparison)
    (op : BinaryOp) :
    (books.withNodes nodeTerms).settle comparison op = (books.settle comparison op).withNodes nodeTerms := by
  unfold settle
  cases Gather.operandType? comparison op with
  | some type => rfl
  | none => rfl

namespace Walked

variable {comparison : Comparison} {env : Env Term} {node : Nat} {e : Expr} {books after : Books}
  {term : Term}

/-- A walk does not read the terms of nodes. -/
theorem exists_withNodes (walked : Walked comparison env node e books term after)
    (nodeTerms : Table Nat Term) : exists others,
      Walked comparison env node e (books.withNodes nodeTerms) term (after.withNodes others) := by
  induction walked generalizing nodeTerms with
  | int => exact ⟨_, .int⟩
  | bool => exact ⟨_, .bool⟩
  | var found => exact ⟨_, .var found⟩
  | @letIn _ node _ _ _ _ _ _ afterBody _ _ ofBound ofBody boundIh bodyIh =>
      rcases boundIh nodeTerms with ⟨boundNodes, ofBound⟩
      rcases bodyIh boundNodes with ⟨bodyNodes, ofBody⟩
      have walked := Walked.letIn ofBound ofBody
      exact ⟨bodyNodes.insert node afterBody.unknown, walked⟩
  | ite ofCondition ofConsequent ofAlternate conditionIh consequentIh alternateIh =>
      rcases conditionIh nodeTerms with ⟨conditionNodes, ofCondition⟩
      rcases consequentIh conditionNodes with ⟨consequentNodes, ofConsequent⟩
      rcases alternateIh consequentNodes with ⟨alternateNodes, ofAlternate⟩
      exact ⟨_, .ite ofCondition ofConsequent ofAlternate⟩
  | unary ofOperand ih =>
      rcases ih nodeTerms with ⟨operandNodes, ofOperand⟩
      exact ⟨_, .unary ofOperand⟩
  | @binary env node op left right place books _ _ _ _ ofLeft ofRight leftIh rightIh =>
      rcases leftIh nodeTerms with ⟨leftNodes, ofLeft⟩
      rcases rightIh leftNodes with ⟨rightNodes, ofRight⟩
      have walked : Walked comparison env node (.binary op left right place) (books.withNodes nodeTerms)
          (.ground (Gather.resultType op)) _ := .binary ofLeft ofRight
      rw [Books.settle_withNodes] at walked
      exact ⟨rightNodes.insert node (.ground (Gather.resultType op)), walked⟩

/-- Types that satisfy the equations of a walk make up a derivation, also if the books hold terms for
the nodes already. -/
theorem nonempty_derivation (walked : Walked comparison env node e books term after)
    {valuation : Valuation} (satisfied : valuation.Satisfies after) :
    Nonempty (Derivation comparison (valuation.context env) e (valuation.typeOf term)) := by
  rcases walked.exists_withNodes .empty with ⟨others, rewalked⟩
  have vacant : (books.withNodes .empty).Vacant node (node + e.size) :=
    fun _ _ _ listed => absurd listed List.not_mem_nil
  rcases rewalked.derives valuation _ satisfied vacant rfl with ⟨derivation, _⟩
  exact ⟨derivation⟩

end Walked

/-- What a term denotes under a naming: a type denotes itself, and every other term denotes the type
that its key is named with. -/
inductive Naming.Denotes (naming : Naming) : Term -> Ground -> Prop where
  | ground (type : Ground) : Denotes naming (.ground type) type
  | named {term : Term} {type : Ground} (notGround : forall ground, term ≠ .ground ground)
      (found : naming.find? term.key = some type) : Denotes naming term type

theorem Naming.denotes_of_typeOf {naming : Naming} {term : Term} {type : Ground}
    (typed : Inference.typeOf naming term = .ok type) : naming.Denotes term type := by
  cases shape : term.ground? with
  | some ground =>
      rw [Inference.typeOf, shape] at typed
      cases typed
      cases term with
      | ground other =>
          cases shape
          exact .ground _
      | unknown number label => cases shape
      | binder name index => cases shape
  | none =>
      have notGround : forall ground, term ≠ .ground ground := by
        rintro ground rfl
        cases shape
      rw [Inference.typeOf, shape] at typed
      cases found : naming.find? term.key with
      | none =>
          rw [found] at typed
          cases typed
      | some other =>
          rw [found] at typed
          cases typed
          exact .named notGround found

/-- One use of a generator: which generator, the number of the root node, and the program. -/
structure Call where
  which : Nat
  node : Nat
  program : Expr

structure Run extends Call where
  gathered : ConstraintSet

namespace Run

variable {comparison : Comparison} {books after : Books} {runs : List Run}

/-- What the books of a generator say about its runs.  Types that satisfy the equations are types of
all programs, there is no choice between them, and they exist if all programs have types. -/
structure Kept (comparison : Comparison) (books : Books) (runs : List Run) : Prop where
  consistent : books.Consistent
  determined : books.Determined
  accounted : forall run, run ∈ runs -> books.Accounts run.gathered.root
  sound : forall valuation : Valuation, valuation.Satisfies books -> forall run, run ∈ runs ->
    Nonempty (Derivation comparison .empty run.program (valuation.typeOf run.gathered.root))
  complete : (forall run, run ∈ runs ->
      exists type, Nonempty (Derivation comparison .empty run.program type)) ->
    exists valuation : Valuation, valuation.Satisfies books

theorem kept_empty (comparison : Comparison) : Kept comparison {} [] where
  consistent := Books.consistent_empty
  determined := Books.determined_empty
  accounted := fun _ listed => absurd listed List.not_mem_nil
  sound := fun _ _ _ listed => absurd listed List.not_mem_nil
  complete := fun _ => ⟨.base, fun _ listed => absurd listed List.not_mem_nil⟩

namespace Kept

/-- Unknowns that are issued to others do no harm. -/
theorem drawn {supply later : Supply} {ledger : Ledger} (kept : Kept comparison ⟨supply, ledger⟩ runs)
    (grown : supply.issued ≤ later.issued) : Kept comparison ⟨later, ledger⟩ runs := by
  have extended : Books.Extends ⟨supply, ledger⟩ ⟨later, ledger⟩ :=
    ⟨List.prefix_rfl, List.prefix_rfl, grown⟩
  refine ⟨?_, kept.determined, ?_, kept.sound, kept.complete⟩
  · exact kept.consistent.extend extended (fun _ listed => Or.inl listed) (fun _ listed => Or.inl listed)
      (fun _ listed => Or.inl listed)
  · exact fun run listed => extended.accounts (kept.accounted run listed)

/-- A further program on the same generator. -/
theorem walked (kept : Kept comparison books runs) {run : Run}
    (walked : Walked comparison [] run.node run.program books run.gathered.root after) :
    Kept comparison after (runs ++ [run]) := by
  rcases walked.consistent kept.consistent (Books.scopes_empty books) with ⟨consistent, accounted⟩
  refine ⟨consistent, walked.determined kept.determined, ?_, ?_, ?_⟩
  · intro other listed
    rcases List.mem_append.mp listed with earlier | new
    · exact walked.grown.accounts (kept.accounted other earlier)
    · rw [List.mem_singleton.mp new]
      exact accounted
  · intro valuation satisfied other listed
    rcases List.mem_append.mp listed with earlier | new
    · exact kept.sound valuation (satisfied.of_extends walked.grown) other earlier
    · rw [List.mem_singleton.mp new]
      exact walked.nonempty_derivation satisfied
  · intro typed
    rcases kept.complete (fun other listed => typed other (List.mem_append_left _ listed)) with
      ⟨valuation, satisfied⟩
    rcases typed run (List.mem_append_right _ List.mem_cons_self) with ⟨type, ⟨derivation⟩⟩
    rcases walked.extensible _ _ kept.consistent (Books.scopes_empty books) satisfied derivation with
      ⟨extended, _, extendedSatisfied, _⟩
    exact ⟨extended, extendedSatisfied⟩

theorem exists_naming_iff (kept : Kept comparison books runs) :
    (exists naming, (Solution.ofEquations books.equations).naming = .ok naming) ↔
      forall run, run ∈ runs ->
        exists type, Nonempty (Derivation comparison .empty run.program type) := by
  constructor
  · rintro ⟨naming, named⟩ run listed
    have satisfied := Books.satisfies_of_solves (Solution.solves_naming named)
    exact ⟨_, kept.sound _ satisfied run listed⟩
  · intro typed
    rcases kept.complete typed with ⟨valuation, satisfied⟩
    cases outcome : (Solution.ofEquations books.equations).naming with
    | ok naming => exact ⟨naming, rfl⟩
    | error fault =>
        exact absurd (kept.determined.existsUnique_solves satisfied)
          (Solution.not_existsUnique_of_fault outcome)

theorem exists_denotes_root (kept : Kept comparison books runs) {naming : Naming}
    (named : (Solution.ofEquations books.equations).naming = .ok naming) {run : Run}
    (listed : run ∈ runs) : exists type, Nonempty (Derivation comparison .empty run.program type) ∧
      naming.Denotes run.gathered.root type := by
  have solves := Solution.solves_naming named
  refine ⟨_, kept.sound _ (Books.satisfies_of_solves solves) run listed, ?_⟩
  exact Naming.denotes_of_typeOf (Inference.typeOf_eq_ok solves (kept.accounted run listed))

end Kept

def ofGenerator (which : Nat) (runs : List Run) : List Run :=
  runs.filter (fun run => run.which = which)

theorem ofGenerator_concat_self (runs : List Run) (run : Run) :
    ofGenerator run.which (runs ++ [run]) = ofGenerator run.which runs ++ [run] := by
  simp [ofGenerator]

theorem ofGenerator_concat_of_ne {which : Nat} {run : Run} (different : run.which ≠ which)
    (runs : List Run) : ofGenerator which (runs ++ [run]) = ofGenerator which runs := by
  simp [ofGenerator, different]

end Run

/-! ## Several generators -/

/-- Inference alone gives the program the type. -/
def Expr.Infers (e : Expr) (comparison : Comparison) (type : Ground) : Prop :=
  exists inference typing, e.infer comparison = .ok inference ∧ inference.typing = .ok typing ∧
    typing.type = type

theorem Expr.infers_iff {e : Expr} (wellScoped : e.isWellScoped = true) (comparison : Comparison)
    (type : Ground) : e.Infers comparison type ↔ Nonempty (Derivation comparison .empty e type) := by
  constructor
  · rintro ⟨inference, typing, inferred, succeeded, rfl⟩
    exact derivation_of_infer wellScoped inferred succeeded
  · rintro ⟨derivation⟩
    rcases infer_cases wellScoped comparison with ⟨inference, inferred, outcome⟩
    rcases outcome with ⟨typing, succeeded, other, _⟩ | ⟨_, underivable⟩
    · exact ⟨inference, typing, inferred, succeeded, other.type_unique derivation⟩
    · exact ((underivable type).false derivation).elim

namespace Workshop

variable {comparisons : List Comparison} {workshop : Workshop} {runs : List Run}

/-- New generators, one for each comparison rule. -/
def ofSupply (supply : Supply) (comparisons : List Comparison) : Workshop where
  supply := supply
  generators := comparisons.map (fun comparison => { comparison := comparison })

/-- Calls one after another; `none` if one of them does not succeed. -/
def perform : Workshop -> List Call -> Option (List Run × Workshop)
  | workshop, [] => some ([], workshop)
  | workshop, call :: rest =>
      match workshop.run call.which call.node call.program with
      | some (.ok gathered, next) =>
          (perform next rest).map (fun later => (⟨call, gathered⟩ :: later.1, later.2))
      | _ => none

/-- The books of each generator keep its runs, and the latest of them has all its equations. -/
def Keeps (comparisons : List Comparison) (workshop : Workshop) (runs : List Run) : Prop :=
  forall which comparison, comparisons[which]? = some comparison -> exists ledger,
    workshop.generators[which]? = some ⟨comparison, ledger⟩ ∧
    Run.Kept comparison ⟨workshop.supply, ledger⟩ (Run.ofGenerator which runs) ∧
    forall latest, (Run.ofGenerator which runs).getLast? = some latest ->
      latest.gathered.constraints = ledger.constraints

theorem keeps_ofSupply (supply : Supply) (comparisons : List Comparison) :
    Keeps comparisons (ofSupply supply comparisons) [] := by
  intro which comparison found
  refine ⟨{}, ?_, (Run.kept_empty comparison).drawn (Nat.zero_le _), fun _ isLatest => ?_⟩
  · rw [ofSupply, List.getElem?_map, found]
    rfl
  · cases isLatest

theorem exists_run_eq {which : Nat} {generator : Generator}
    (found : workshop.generators[which]? = some generator) (node : Nat) {e : Expr}
    (wellScoped : e.isWellScoped = true) : exists root after,
      Walked generator.comparison [] node e ⟨workshop.supply, generator.ledger⟩ root after ∧
      workshop.run which node e = some (.ok (after.ledger.close after.supply root),
        ⟨after.supply, workshop.generators.set which ⟨generator.comparison, after.ledger⟩⟩) := by
  rcases Gather.exists_program_eq_ok wellScoped generator.comparison node
    ⟨workshop.supply, generator.ledger⟩ with ⟨root, after, walked, ran⟩
  refine ⟨root, after, walked, ?_⟩
  unfold run
  simp only [found, ran]

/-- One call adds to the books of its generator and leaves those of all others alone. -/
theorem Keeps.run (keeps : Keeps comparisons workshop runs) {call : Call}
    (inRange : call.which < comparisons.length) (wellScoped : call.program.isWellScoped = true) :
    exists gathered next,
      workshop.run call.which call.node call.program = some (.ok gathered, next) ∧
        Keeps comparisons next (runs ++ [⟨call, gathered⟩]) := by
  rcases keeps call.which _ (List.getElem?_eq_getElem inRange) with ⟨ledger, ofCall, kept, _⟩
  rcases exists_run_eq ofCall call.node wellScoped with ⟨root, after, walked, ran⟩
  refine ⟨_, _, ran, ?_⟩
  intro which comparison found
  by_cases same : call.which = which
  · subst same
    have rule : comparisons[call.which] = comparison :=
      Option.some.inj ((List.getElem?_eq_getElem inRange).symm.trans found)
    subst rule
    refine ⟨after.ledger, ?_, ?_, ?_⟩
    · rw [List.getElem?_set_self (List.getElem?_eq_some_iff.mp ofCall).1]
    · rw [Run.ofGenerator_concat_self runs ⟨call, after.ledger.close after.supply root⟩]
      exact kept.walked walked
    · intro latest isLatest
      rw [Run.ofGenerator_concat_self runs ⟨call, after.ledger.close after.supply root⟩,
        List.getLast?_concat] at isLatest
      cases isLatest
      rfl
  · rcases keeps which comparison found with ⟨others, ofOther, otherKept, otherLatest⟩
    rw [Run.ofGenerator_concat_of_ne same]
    refine ⟨others, ?_, otherKept.drawn walked.grown.issued, otherLatest⟩
    rw [List.getElem?_set_ne same, ofOther]

/-- So do any number of calls. -/
theorem Keeps.perform (keeps : Keeps comparisons workshop runs) {calls : List Call}
    (inRange : forall call, call ∈ calls -> call.which < comparisons.length)
    (wellScoped : forall call, call ∈ calls -> call.program.isWellScoped = true) :
    exists later last, workshop.perform calls = some (later, last) ∧
      later.map Run.toCall = calls ∧ Keeps comparisons last (runs ++ later) := by
  induction calls generalizing workshop runs with
  | nil =>
      refine ⟨[], workshop, rfl, rfl, ?_⟩
      rwa [List.append_nil]
  | cons call rest ih =>
      rcases keeps.run (inRange call List.mem_cons_self) (wellScoped call List.mem_cons_self) with
        ⟨gathered, next, ran, nextKeeps⟩
      rcases ih nextKeeps (fun other listed => inRange other (List.mem_cons_of_mem _ listed))
        (fun other listed => wellScoped other (List.mem_cons_of_mem _ listed)) with
        ⟨later, last, performed, sameCalls, lastKeeps⟩
      refine ⟨⟨call, gathered⟩ :: later, last, ?_, ?_, ?_⟩
      · rw [Workshop.perform, ran]
        simp only [performed, Option.map_some]
      · rw [List.map_cons, sameCalls]
      · rwa [List.append_assoc, List.singleton_append] at lastKeeps

/-- New generators share a supply, and programs are given to them in any order, the same program as
often as one likes.  The equations that a generator gives with its latest program have a solution
exactly if inference alone finds types for each of its programs, and then the solution gives each of
them the type that inference alone gives it. -/
theorem perform_apart (supply : Supply) (comparisons : List Comparison) (calls : List Call)
    (inRange : forall call, call ∈ calls -> call.which < comparisons.length)
    (wellScoped : forall call, call ∈ calls -> call.program.isWellScoped = true) :
    exists runs last, (ofSupply supply comparisons).perform calls = some (runs, last) ∧
      runs.map Run.toCall = calls ∧
      forall which comparison latest, comparisons[which]? = some comparison ->
        (Run.ofGenerator which runs).getLast? = some latest ->
        ((exists naming,
            (Solution.ofEquations (Inference.equations latest.gathered.constraints)).naming = .ok naming) ↔
          forall run, run ∈ Run.ofGenerator which runs ->
            exists type, run.program.Infers comparison type) ∧
        forall naming,
          (Solution.ofEquations (Inference.equations latest.gathered.constraints)).naming = .ok naming ->
          forall run, run ∈ Run.ofGenerator which runs -> exists type,
            run.program.Infers comparison type ∧ naming.Denotes run.gathered.root type := by
  rcases (keeps_ofSupply supply comparisons).perform inRange wellScoped with
    ⟨runs, last, performed, sameCalls, keeps⟩
  refine ⟨runs, last, performed, sameCalls, ?_⟩
  intro which comparison latest found isLatest
  rcases keeps which comparison found with ⟨ledger, _, kept, sameConstraints⟩
  rw [List.nil_append] at kept sameConstraints
  rw [sameConstraints latest isLatest]
  have closed : forall run, run ∈ Run.ofGenerator which runs -> run.program.isWellScoped = true := by
    intro run listed
    apply wellScoped run.toCall
    rw [← sameCalls]
    exact List.mem_map_of_mem (List.mem_filter.mp listed).1
  constructor
  · refine kept.exists_naming_iff.trans (forall₂_congr ?_)
    intro run listed
    exact exists_congr (fun type => (Expr.infers_iff (closed run listed) comparison type).symm)
  · intro naming named run listed
    rcases kept.exists_denotes_root named listed with ⟨type, derivation, denotes⟩
    exact ⟨type, (Expr.infers_iff (closed run listed) comparison type).mpr derivation, denotes⟩

/-- Two generators whose supply is not new, the first of which is used twice for one program. -/
def repeatedCalls : List Call :=
  [⟨0, 0, .shadowed⟩, ⟨1, 0, .shadowed⟩, ⟨0, 0, .shadowed⟩]

theorem perform_repeated :
    repeatedCalls.all (fun call => decide (call.which < 2) && call.program.isWellScoped) = true ∧
    exists runs last latest naming,
      (ofSupply ⟨3⟩ [.int, .same]).perform repeatedCalls = some (runs, last) ∧
      (Run.ofGenerator 0 runs).getLast? = some latest ∧
      (Solution.ofEquations (Inference.equations latest.gathered.constraints)).naming = .ok naming ∧
      (Run.ofGenerator 0 runs).length = 2 ∧
      forall run, run ∈ Run.ofGenerator 0 runs -> naming.Denotes run.gathered.root .int := by
  have fits : repeatedCalls.all (fun call => decide (call.which < 2) && call.program.isWellScoped) = true := by
    decide
  have each := List.all_eq_true.mp fits
  simp only [Bool.and_eq_true, decide_eq_true_eq] at each
  refine ⟨fits, ?_⟩
  rcases perform_apart ⟨3⟩ [.int, .same] repeatedCalls (fun call listed => (each call listed).1)
    (fun call listed => (each call listed).2) with ⟨runs, last, performed, sameCalls, apart⟩
  rcases List.map_eq_cons_iff.mp sameCalls with ⟨first, _, rfl, firstCall, others⟩
  rcases List.map_eq_cons_iff.mp others with ⟨second, _, rfl, secondCall, others⟩
  rcases List.map_eq_singleton_iff.mp others with ⟨third, rfl, thirdCall⟩
  have ofFirst : Run.ofGenerator 0 [first, second, third] = [first, third] := by
    simp [Run.ofGenerator, firstCall, secondCall, thirdCall]
  have sameProgram : forall run, run ∈ [first, third] -> run.program = .shadowed := by
    simp [firstCall, thirdCall]
  have alone := Expr.infers_iff (each _ List.mem_cons_self).2 .int
  rcases apart 0 .int third rfl (by rw [ofFirst]; rfl) with ⟨solvable, types⟩
  rw [ofFirst] at solvable types
  have typed : forall run, run ∈ [first, third] -> exists type, run.program.Infers .int type := by
    intro run listed
    rw [sameProgram run listed]
    exact ⟨.int, (alone .int).mpr ⟨Expr.shadowedDerivation⟩⟩
  rcases solvable.mpr typed with ⟨naming, named⟩
  refine ⟨_, last, third, naming, performed, by rw [ofFirst]; rfl, named, by rw [ofFirst]; rfl, ?_⟩
  intro run listed
  rw [ofFirst] at listed
  rcases types naming named run listed with ⟨type, inferred, denotes⟩
  rw [sameProgram run listed] at inferred
  rcases (alone type).mp inferred with ⟨derivation⟩
  rwa [derivation.type_unique Expr.shadowedDerivation] at denotes

end Workshop

end Monotype
