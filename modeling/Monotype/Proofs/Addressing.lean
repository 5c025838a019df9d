import Monotype.Proofs.Nesting

namespace Monotype

/-!
# What the terms of a program belong to

A walk gives a node its term when it leaves the node, so terms are noted in the order in which nodes
are left, and unknowns are drawn in that order too.

A use of a name has the term of the innermost `let` of that name that has the use in its body.  Binders
are counted for the program as a whole while scopes are nested, so this is not a matter of counting.
Every node has a walk of its own within the walk over the program, and what the names in scope stand
for in it is followed from the root down to the node.
-/

namespace Expr

/-! ## What a name stands for at a node -/

/-- Among the names in scope at a node, one bound within the expression stands for the term of the
innermost binder around the node, and any other for what it stands for outside. -/
def Resolves (e : Expr) (first : Nat) (env : Env Term) (binders : List Binder) (node : Nat)
    (scope : Env Term) (name : Text) : Prop :=
  (exists binder, binder ∈ binders ∧ e.Innermost first name binder.node node ∧
    scope.find? name = some binder.term) ∨
  (forall outer, ¬ e.Encloses first name outer node) ∧ scope.find? name = env.find? name

section Resolves

variable {first node : Nat} {env scope : Env Term} {binders more : List Binder} {name : Text}

theorem resolves_root (e : Expr) (first : Nat) (env : Env Term) (binders : List Binder) (name : Text) :
    e.Resolves first env binders first env name := by
  refine Or.inr ⟨?_, rfl⟩
  intro outer encloses
  have range := encloses.range
  omega

/-- A part that adds no name to the scope resolves names as the whole does. -/
theorem Resolves.lift {e child : Expr} {start : Nat} {part : Expr}
    (resolves : child.Resolves start env binders node scope name) (isPart : child.At start part node)
    (same : forall outer probe, start ≤ probe -> probe < start + child.size ->
      (e.Encloses first name outer probe ↔ child.Encloses start name outer probe))
    (grown : binders <+: more) : e.Resolves first env more node scope name := by
  have range := isPart.range
  have positive := part.size_pos
  have atNode (outer : Nat) := same outer node range.1 (by omega)
  rcases resolves with ⟨binder, listed, ⟨encloses, innermost⟩, stands⟩ | ⟨free, stands⟩
  · refine Or.inl ⟨binder, grown.subset listed, ⟨(atNode _).mpr encloses, ?_⟩, stands⟩
    intro other outside
    have ofBinder := encloses.range
    rw [same other binder.node ofBinder.1 (by omega)]
    exact innermost other ((atNode other).mp outside)
  · exact Or.inr ⟨fun outer outside => free outer ((atNode outer).mp outside), stands⟩

/-- In the body of a `let` its own name stands for its binder, unless it is bound once more. -/
theorem Resolves.body {bound body part : Expr} {place : Option Position} {binder : Binder}
    (resolves : body.Resolves (binder.node + 1 + bound.size) (env.bind binder.name binder.term) binders
      node scope name)
    (isPart : body.At (binder.node + 1 + bound.size) part node) (listed : binder ∈ binders)
    (grown : binders <+: more) :
    (letIn binder.name bound body place).Resolves binder.node env more node scope name := by
  have range := isPart.range
  have inBody {outer probe : Nat} (above : binder.node + 1 + bound.size ≤ probe)
      (encloses : (letIn binder.name bound body place).Encloses binder.node name outer probe) :
      binder.name = name ∧ outer = binder.node ∨
        body.Encloses (binder.node + 1 + bound.size) name outer probe := by
    rcases encloses_letIn_iff.mp encloses with ⟨same, isRoot, _⟩ | inBound | inBody
    · exact Or.inl ⟨same, isRoot⟩
    · have apart := inBound.range
      omega
    · exact Or.inr inBody
  rcases resolves with ⟨inner, innerListed, ⟨encloses, innermost⟩, stands⟩ | ⟨free, stands⟩
  · refine Or.inl ⟨inner, grown.subset innerListed,
      ⟨encloses_letIn_iff.mpr (Or.inr (Or.inr encloses)), ?_⟩, stands⟩
    intro other outside
    rcases inBody range.1 outside with ⟨same, isRoot⟩ | inside
    · -- The `let` as a whole is around every `let` of its body.
      rcases encloses with ⟨_, _, _, _, isLet, _⟩
      exact Or.inr (encloses_letIn_iff.mpr (Or.inl ⟨same, isRoot, _, isLet⟩))
    · rcases innermost other inside with isInner | around
      · exact Or.inl isInner
      · exact Or.inr (encloses_letIn_iff.mpr (Or.inr (Or.inr around)))
  · rw [Env.find?_bind] at stands
    by_cases same : binder.name = name
    · rw [if_pos same] at stands
      refine Or.inl ⟨binder, grown.subset listed,
        ⟨encloses_letIn_iff.mpr (Or.inl ⟨same, rfl, part, isPart⟩), ?_⟩, stands⟩
      intro other outside
      rcases inBody range.1 outside with ⟨_, isRoot⟩ | inside
      · exact Or.inl isRoot
      · exact absurd inside (free other)
    · rw [if_neg same] at stands
      refine Or.inr ⟨?_, stands⟩
      intro outer outside
      rcases inBody range.1 outside with ⟨equal, _⟩ | inside
      · exact same equal
      · exact free outer inside

end Resolves

end Expr

/-! ## What a walk leaves behind -/

namespace Books

variable {books between after : Books} {first last : Nat}

/-- The second books hold what the first hold, and say the same about the nodes from `first` up to
`last`. -/
structure Retains (books after : Books) (first last : Nat) : Prop where
  grown : books.Extends after
  terms : forall probe, first ≤ probe -> probe < last ->
    after.ledger.nodeTerms.find? probe = books.ledger.nodeTerms.find? probe

namespace Retains

theorem refl (books : Books) (first last : Nat) : books.Retains books first last :=
  ⟨.refl books, fun _ _ _ => rfl⟩

theorem trans (retains : books.Retains between first last) (later : between.Retains after first last) :
    books.Retains after first last :=
  ⟨retains.grown.trans later.grown, fun probe above below =>
    (later.terms probe above below).trans (retains.terms probe above below)⟩

theorem mono {first' last' : Nat} (retains : books.Retains after first last) (lower : first ≤ first')
    (upper : last' ≤ last) : books.Retains after first' last' :=
  ⟨retains.grown, fun probe above below =>
    retains.terms probe (Nat.le_trans lower above) (Nat.lt_of_lt_of_le below upper)⟩

theorem equate (retains : books.Retains after first last) (left right : Term) (node : Nat)
    (reason : Text) : books.Retains (after.equate left right node reason) first last :=
  ⟨retains.grown.equate left right node reason, retains.terms⟩

theorem enter (retains : books.Retains after first last) (name : Text) (node : Nat)
    (place : Option Position) : books.Retains (after.enter name node place) first last :=
  ⟨retains.grown.enter name node place, retains.terms⟩

theorem issue (retains : books.Retains after first last) : books.Retains after.issue first last :=
  ⟨retains.grown.issue, retains.terms⟩

theorem settle (retains : books.Retains after first last) (comparison : Comparison) (op : BinaryOp) :
    books.Retains (after.settle comparison op) first last := by
  refine ⟨retains.grown.settle comparison op, ?_⟩
  rw [ledger_settle]
  exact retains.terms

theorem record (retains : books.Retains after first last) {node : Nat}
    (outside : node < first ∨ last ≤ node) (term : Term) :
    books.Retains (after.record node term) first last := by
  refine ⟨retains.grown.record node term, ?_⟩
  intro probe above below
  change (after.ledger.nodeTerms.insert node term).find? probe = _
  rw [Table.find?_insert, if_neg (by omega)]
  exact retains.terms probe above below

end Retains

theorem find?_record (books : Books) (node : Nat) (term : Term) :
    (books.record node term).ledger.nodeTerms.find? node = some term := by
  change (books.ledger.nodeTerms.insert node term).find? node = _
  rw [Table.find?_insert, if_pos rfl]

/-- An operator that leaves the type of its operands open gets the newest unknown for it. -/
theorem operand_of_shares (books : Books) {comparison : Comparison} {op : BinaryOp}
    (shared : op.shares comparison = true) :
    books.operand comparison op = .numbered (books.settle comparison op).supply.issued := by
  unfold operand settle
  rw [BinaryOp.operandType?_eq_none_iff.mpr shared]
  rfl

theorem issued_settle (books : Books) (comparison : Comparison) (op : BinaryOp) :
    (books.settle comparison op).supply.issued =
      books.supply.issued + if op.shares comparison = true then 1 else 0 := by
  unfold settle
  cases settled : Gather.operandType? comparison op with
  | some type =>
      have fixed : ¬ op.shares comparison = true := by
        rw [← BinaryOp.operandType?_eq_none_iff, settled]
        exact Option.some_ne_none type
      rw [if_neg fixed]
      rfl
  | none =>
      rw [if_pos (BinaryOp.operandType?_eq_none_iff.mp settled)]
      rfl

end Books

namespace Walked

variable {comparison : Comparison} {env : Env Term} {node : Nat} {e : Expr} {books after : Books}
  {term : Term}

/-- A walk notes a term for each node as it leaves the node. -/
theorem nodeTerms_eq (walked : Walked comparison env node e books term after) :
    exists pairs : List (Nat × Term), pairs.map Prod.fst = (e.postOrder node).map Prod.snd ∧
      after.ledger.nodeTerms =
        pairs.foldl (fun table pair => table.insert pair.1 pair.2) books.ledger.nodeTerms := by
  induction walked with
  | int => exact ⟨[(_, _)], rfl, rfl⟩
  | bool => exact ⟨[(_, _)], rfl, rfl⟩
  | var found => exact ⟨[(_, _)], rfl, rfl⟩
  | @letIn _ node _ _ _ _ _ _ afterBody _ _ _ _ boundIh bodyIh =>
      rcases boundIh with ⟨ofBound, boundKeys, boundTerms⟩
      rcases bodyIh with ⟨ofBody, bodyKeys, bodyTerms⟩
      refine ⟨ofBound ++ ofBody ++ [(node, afterBody.unknown)], ?_, ?_⟩
      · simp only [Expr.postOrder, List.map_append, boundKeys, bodyKeys, List.map_cons, List.map_nil]
      · rw [List.foldl_append, List.foldl_append, ← boundTerms]
        exact congrArg (fun table : Table Nat Term => table.insert node afterBody.unknown) bodyTerms
  | @ite _ node _ _ _ _ _ _ _ _ _ consequentTerm _ _ _ _ conditionIh consequentIh alternateIh =>
      rcases conditionIh with ⟨ofCondition, conditionKeys, conditionTerms⟩
      rcases consequentIh with ⟨ofConsequent, consequentKeys, consequentTerms⟩
      rcases alternateIh with ⟨ofAlternate, alternateKeys, alternateTerms⟩
      refine ⟨ofCondition ++ ofConsequent ++ ofAlternate ++ [(node, consequentTerm)], ?_, ?_⟩
      · simp only [Expr.postOrder, List.map_append, conditionKeys, consequentKeys, alternateKeys,
          List.map_cons, List.map_nil]
      · rw [List.foldl_append, List.foldl_append, List.foldl_append, ← conditionTerms, ← consequentTerms]
        exact congrArg (fun table : Table Nat Term => table.insert node consequentTerm) alternateTerms
  | @unary _ node op _ _ _ _ _ _ ih =>
      rcases ih with ⟨ofOperand, keys, terms⟩
      refine ⟨ofOperand ++ [(node, .ground (Gather.unaryType op))], ?_, ?_⟩
      · simp only [Expr.postOrder, List.map_append, keys, List.map_cons, List.map_nil]
      · rw [List.foldl_append]
        exact congrArg (fun table : Table Nat Term => table.insert node (.ground (Gather.unaryType op))) terms
  | @binary _ node op _ _ _ _ _ afterRight _ _ _ _ leftIh rightIh =>
      rcases leftIh with ⟨ofLeft, leftKeys, leftTerms⟩
      rcases rightIh with ⟨ofRight, rightKeys, rightTerms⟩
      refine ⟨ofLeft ++ ofRight ++ [(node, .ground (Gather.resultType op))], ?_, ?_⟩
      · simp only [Expr.postOrder, List.map_append, leftKeys, rightKeys, List.map_cons, List.map_nil]
      · rw [List.foldl_append, List.foldl_append, ← leftTerms, ← rightTerms,
          ← afterRight.ledger_settle comparison op]
        rfl

/-- A walk does not touch the nodes outside its expression. -/
theorem retains (walked : Walked comparison env node e books term after) {first last : Nat}
    (apart : last ≤ node ∨ node + e.size ≤ first) : books.Retains after first last := by
  refine ⟨walked.grown, ?_⟩
  intro probe above below
  rcases walked.nodeTerms_eq with ⟨pairs, keys, terms⟩
  rw [terms]
  apply Table.find?_foldl_insert
  rw [keys, (e.map_snd_postOrder_perm node).mem_iff, List.mem_range'_1]
  omega

/-- The root has the term that the walk gives. -/
theorem find?_root (walked : Walked comparison env node e books term after) :
    after.ledger.nodeTerms.find? node = some term := by
  cases walked with
  | int => exact Books.find?_record _ _ _
  | bool => exact Books.find?_record _ _ _
  | var found => exact Books.find?_record _ _ _
  | letIn ofBound ofBody => exact Books.find?_record _ _ _
  | ite ofCondition ofConsequent ofAlternate => exact Books.find?_record _ _ _
  | unary ofOperand => exact Books.find?_record _ _ _
  | binary ofLeft ofRight => exact Books.find?_record _ _ _

theorem issued_eq (walked : Walked comparison env node e books term after) :
    after.supply.issued = books.supply.issued + (e.drawers comparison node).length := by
  induction walked with
  | int => rfl
  | bool => rfl
  | var found => rfl
  | @letIn _ _ _ _ _ _ _ afterBound afterBody _ _ _ _ boundIh bodyIh =>
      change afterBody.supply.issued = afterBound.supply.issued + _ at bodyIh
      change afterBody.supply.issued + 1 = _
      rw [Expr.drawers_letIn, List.length_append, List.length_append, List.length_singleton]
      omega
  | @ite _ _ _ _ _ _ _ _ _ afterAlternate _ _ _ _ _ _ conditionIh consequentIh alternateIh =>
      change afterAlternate.supply.issued = _
      rw [Expr.drawers_ite, List.length_append, List.length_append]
      omega
  | unary _ ih =>
      rw [Expr.drawers_unary]
      exact ih
  | @binary _ _ op _ _ _ _ _ afterRight _ _ _ _ leftIh rightIh =>
      change (afterRight.settle comparison op).supply.issued = _
      rw [Books.issued_settle, rightIh, leftIh, Expr.drawers_binary, List.length_append, List.length_append]
      by_cases shared : op.shares comparison = true
      · rw [if_pos shared, if_pos shared, List.length_singleton]
        omega
      · rw [if_neg shared, if_neg shared, List.length_nil]
        omega

end Walked

/-! ## The walk over a part -/

/-- Within a walk over `e`, the part at `number` had a walk of its own, under the names of `scope` and
up to the books `left`.  What it left behind is still there at the end. -/
structure Visit (comparison : Comparison) (env : Env Term) (node : Nat) (e : Expr) (books after : Books)
    (part : Expr) (number : Nat) (scope : Env Term) (left : Books) : Prop where
  walked : exists before term, Walked comparison scope number part before term left
  kept : left.Retains after number (number + part.size)
  names : forall name, e.Resolves node env after.ledger.binders number scope name
  drawn : part.draws comparison = true ->
    ((part, number), left.supply.issued) ∈
      (e.drawers comparison node).zipIdx (books.supply.issued + 1)

section Visit

variable {comparison : Comparison} {env : Env Term} {node : Nat} {e : Expr} {books after : Books}
  {term : Term} {part : Expr} {number : Nat} {scope : Env Term} {left : Books}

theorem Walked.visit (walked : Walked comparison env node e books term after) :
    Visit comparison env node e books after e node env after where
  walked := ⟨books, term, walked⟩
  kept := .refl after _ _
  names := e.resolves_root node env _
  drawn := by
    intro draw
    rcases Expr.exists_drawers_eq draw node with ⟨front, drawers⟩
    have issued := walked.issued_eq
    rw [drawers, List.length_append, List.length_singleton] at issued
    rw [drawers, List.zipIdx_append, List.mem_append, List.zipIdx_singleton, List.mem_singleton]
    exact Or.inr (Prod.ext rfl (by omega))

/-- The walk over a part of a child is one over a part of the whole. -/
theorem Visit.within {inner : Env Term} {start : Nat} {child : Expr} {before between : Books}
    (visit : Visit comparison inner start child before between part number scope left)
    (isPart : child.At start part number) (kept : between.Retains after start (start + child.size))
    (names : forall name more, between.ledger.binders <+: more ->
      child.Resolves start inner between.ledger.binders number scope name ->
        e.Resolves node env more number scope name)
    (front back : List (Expr × Nat))
    (drawers : e.drawers comparison node = front ++ child.drawers comparison start ++ back)
    (issued : before.supply.issued = books.supply.issued + front.length) :
    Visit comparison env node e books after part number scope left where
  walked := visit.walked
  kept := visit.kept.trans (kept.mono isPart.range.1 isPart.range.2)
  names := fun name => names name _ kept.grown.binders (visit.names name)
  drawn := by
    intro draw
    have inChild := visit.drawn draw
    rw [issued, Nat.add_right_comm] at inChild
    rw [drawers, List.zipIdx_append, List.zipIdx_append]
    exact List.mem_append_left _ (List.mem_append_right _ inChild)

/-- The same for a child with the scope of the whole. -/
theorem Visit.lift {start : Nat} {child : Expr} {before between : Books}
    (visit : Visit comparison env start child before between part number scope left)
    (isPart : child.At start part number) (kept : between.Retains after start (start + child.size))
    (same : forall name outer probe, start ≤ probe -> probe < start + child.size ->
      (e.Encloses node name outer probe ↔ child.Encloses start name outer probe))
    (front back : List (Expr × Nat))
    (drawers : e.drawers comparison node = front ++ child.drawers comparison start ++ back)
    (issued : before.supply.issued = books.supply.issued + front.length) :
    Visit comparison env node e books after part number scope left :=
  visit.within isPart kept (fun name _ grown resolves => resolves.lift isPart (same name) grown)
    front back drawers issued

end Visit

/-- Every part of an expression has a walk of its own within the walk over the expression. -/
theorem Walked.exists_visit {comparison : Comparison} {env : Env Term} {node : Nat} {e : Expr}
    {books after : Books} {term : Term} (walked : Walked comparison env node e books term after)
    {part : Expr} {number : Nat} (isPart : e.At node part number) :
    exists scope left, Visit comparison env node e books after part number scope left := by
  induction walked with
  | int =>
      rcases Expr.at_int_iff.mp isPart with ⟨rfl, rfl⟩
      exact ⟨_, _, Walked.int.visit⟩
  | bool =>
      rcases Expr.at_bool_iff.mp isPart with ⟨rfl, rfl⟩
      exact ⟨_, _, Walked.bool.visit⟩
  | var found =>
      rcases Expr.at_var_iff.mp isPart with ⟨rfl, rfl⟩
      exact ⟨_, _, (Walked.var found).visit⟩
  | @letIn env node name bound body place books afterBound afterBody boundTerm bodyTerm ofBound ofBody
      boundIh bodyIh =>
      rcases Expr.at_letIn_iff.mp isPart with ⟨rfl, rfl⟩ | inBound | inBody
      · exact ⟨_, _, (Walked.letIn ofBound ofBody).visit⟩
      · rcases boundIh inBound with ⟨scope, left, visit⟩
        refine ⟨scope, left, visit.lift inBound ?_ ?_ [] _
          ((Expr.drawers_letIn ..).trans (List.append_assoc ..)) rfl⟩
        · have entered := (Books.Retains.refl afterBound (node + 1) (node + 1 + bound.size)).enter
            name node place
          exact ((((entered.equate _ _ _ _).trans (ofBody.retains (by omega))).issue.equate
            _ _ _ _).record (by omega) _)
        · -- The nodes of the body have other numbers than those of the bound expression.
          intro name outer use above below
          rw [Expr.encloses_letIn_iff]
          grind [→ Expr.At.range, → Expr.Encloses.range]
      · rcases bodyIh inBody with ⟨scope, left, visit⟩
        refine ⟨scope, left, visit.within inBody ?_ ?_ _ _ (Expr.drawers_letIn ..) ofBound.issued_eq⟩
        · exact ((Books.Retains.refl afterBody _ _).issue.equate _ _ _ _).record (by omega) _
        · intro probe more grown resolves
          have entered : (⟨name, afterBound.ledger.binderTerm name, node, place⟩ : Binder) ∈
              afterBody.ledger.binders :=
            ofBody.grown.binders.subset (List.mem_append_right _ List.mem_cons_self)
          exact resolves.body inBody entered grown
  | @ite env node condition consequent alternate _ books afterCondition afterConsequent afterAlternate
      conditionTerm consequentTerm alternateTerm ofCondition ofConsequent ofAlternate conditionIh
      consequentIh alternateIh =>
      rcases Expr.at_ite_iff.mp isPart with ⟨rfl, rfl⟩ | inCondition | inConsequent | inAlternate
      · exact ⟨_, _, (Walked.ite ofCondition ofConsequent ofAlternate).visit⟩
      · rcases conditionIh inCondition with ⟨scope, left, visit⟩
        refine ⟨scope, left, visit.lift inCondition ?_ ?_ [] _
          ((Expr.drawers_ite ..).trans (List.append_assoc ..)) rfl⟩
        · exact ((((ofConsequent.retains (by omega)).trans (ofAlternate.retains (by omega))).equate
            _ _ _ _).equate _ _ _ _).record (by omega) _
        · intro name outer use above below
          rw [Expr.encloses_ite_iff]
          grind [→ Expr.Encloses.range]
      · rcases consequentIh inConsequent with ⟨scope, left, visit⟩
        refine ⟨scope, left, visit.lift inConsequent ?_ ?_ _ _ (Expr.drawers_ite ..)
          ofCondition.issued_eq⟩
        · exact (((ofAlternate.retains (by omega)).equate _ _ _ _).equate _ _ _ _).record (by omega) _
        · intro name outer use above below
          rw [Expr.encloses_ite_iff]
          grind [→ Expr.Encloses.range]
      · rcases alternateIh inAlternate with ⟨scope, left, visit⟩
        refine ⟨scope, left, visit.lift inAlternate ?_ ?_ _ []
          ((Expr.drawers_ite ..).trans (List.append_nil _).symm) ?_⟩
        · exact (((Books.Retains.refl afterAlternate _ _).equate _ _ _ _).equate _ _ _ _).record (by omega) _
        · intro name outer use above below
          rw [Expr.encloses_ite_iff]
          grind [→ Expr.Encloses.range]
        · rw [ofConsequent.issued_eq, ofCondition.issued_eq, List.length_append, Nat.add_assoc]
  | @unary env node op operand _ books after _ ofOperand ih =>
      rcases Expr.at_unary_iff.mp isPart with ⟨rfl, rfl⟩ | inOperand
      · exact ⟨_, _, (Walked.unary ofOperand).visit⟩
      · rcases ih inOperand with ⟨scope, left, visit⟩
        refine ⟨scope, left, visit.lift inOperand ?_ ?_ [] []
          ((Expr.drawers_unary ..).trans (List.append_nil _).symm) rfl⟩
        · exact ((Books.Retains.refl after _ _).equate _ _ _ _).record (by omega) _
        · exact fun _ _ _ _ _ => Expr.encloses_unary_iff
  | @binary env node op left right _ books afterLeft afterRight leftTerm rightTerm ofLeft ofRight leftIh
      rightIh =>
      rcases Expr.at_binary_iff.mp isPart with ⟨rfl, rfl⟩ | inLeft | inRight
      · exact ⟨_, _, (Walked.binary ofLeft ofRight).visit⟩
      · rcases leftIh inLeft with ⟨scope, left, visit⟩
        refine ⟨scope, left, visit.lift inLeft ?_ ?_ [] _
          ((Expr.drawers_binary ..).trans (List.append_assoc ..)) rfl⟩
        · exact ((((ofRight.retains (by omega)).settle _ _).equate _ _ _ _).equate _ _ _ _).record
            (by omega) _
        · intro name outer use above below
          rw [Expr.encloses_binary_iff]
          grind [→ Expr.Encloses.range]
      · rcases rightIh inRight with ⟨scope, left, visit⟩
        refine ⟨scope, left, visit.lift inRight ?_ ?_ _ _ (Expr.drawers_binary ..) ofLeft.issued_eq⟩
        · exact ((((Books.Retains.refl afterRight _ _).settle _ _).equate _ _ _ _).equate _ _ _ _).record
            (by omega) _
        · intro name outer use above below
          rw [Expr.encloses_binary_iff]
          grind [→ Expr.Encloses.range]

/-! ## What the constraints of a program say -/

theorem Binder.Counted.nodup_keys {binders : List Binder} (counted : Counted binders) :
    (binders.map (fun binder => binder.term.key)).Nodup := by
  rw [← Function.comp_def Term.key Binder.term, ← List.map_map]
  apply counted.distinct.map_on
  intro first _ second listed same
  rcases List.mem_map.mp listed with ⟨binder, member, rfl⟩
  rcases counted.numbered binder member with ⟨index, isTerm, _⟩
  rw [isTerm] at same ⊢
  exact Term.eq_binder_of_key same

theorem Supply.nodup_keys (supply : Supply) : (supply.unknowns.map Term.key).Nodup := by
  rw [unknowns, List.map_map]
  apply List.nodup_range.map
  intro first second same
  rcases Term.eq_unknown_of_key same with ⟨label, equal⟩
  injection equal with number
  omega

namespace ConstraintSet

/-- An unknown does what a node drew it for: it is the term of a `let`, or what both operands of an
operator are equated with. -/
def Serves (gathered : ConstraintSet) (unknown : Term) (node : Nat) : Expr -> Prop
  | .letIn _ _ _ _ => gathered.nodeTerms.find? node = some unknown
  | .binary op left _ _ => exists leftTerm rightTerm,
      gathered.nodeTerms.find? (node + 1) = some leftTerm ∧
      gathered.nodeTerms.find? (node + 1 + left.size) = some rightTerm ∧
      ⟨⟨leftTerm, unknown⟩, node, "left operand of " ++ op.name⟩ ∈ gathered.constraints ∧
      ⟨⟨rightTerm, unknown⟩, node, "right operand of " ++ op.name⟩ ∈ gathered.constraints
  | _ => False

/-- The terms of a program are tied to its nodes. -/
structure Addresses (gathered : ConstraintSet) (comparison : Comparison) (e : Expr) : Prop where
  /-- The nodes with a term, in the order in which they are left. -/
  nodes : gathered.nodeTerms.keys = (e.postOrder 0).map Prod.snd
  /-- Every node has one term. -/
  nodes_perm : gathered.nodeTerms.keys.Perm (List.range e.size)
  /-- A binder stands behind those of its bound expression and in front of those of its body. -/
  binders : gathered.binders.map Binder.binding = e.bindings 0
  /-- Every `let` has one binder. -/
  binders_perm : (gathered.binders.map Binder.binding).Perm (e.lets 0)
  /-- The terms of two binders are different. -/
  binders_nodup : (gathered.binders.map (fun binder => binder.term.key)).Nodup
  /-- A use of a name has the term of the innermost binder of the name. -/
  uses : forall name place node, e.At 0 (.var name place) node ->
    exists binder, binder ∈ gathered.binders ∧ e.Innermost 0 name binder.node node ∧
      gathered.nodeTerms.find? node = some binder.term
  /-- There is one unknown for each node that draws one. -/
  unknowns : gathered.unknowns =
    (List.range (e.parts.countP (Expr.draws comparison))).map (fun earlier : Nat => .numbered (earlier + 1))
  /-- Two unknowns are different. -/
  unknowns_nodup : (gathered.unknowns.map Term.key).Nodup
  /-- The unknown of a node has the position of the node among those that draw one. -/
  drawn : forall part node, e.At 0 part node -> part.draws comparison = true ->
    exists number : Nat, ((part, node), number) ∈ (e.drawers comparison 0).zipIdx 1 ∧
      gathered.Serves (.numbered number) node part

end ConstraintSet

section Visit

variable {comparison : Comparison} {env scope : Env Term} {node number : Nat} {e part : Expr}
  {books after left : Books}

theorem Visit.serves
    (visit : Visit comparison env node e books after part number scope left)
    (draw : part.draws comparison = true) (supply : Supply) (root : Term) :
    (after.ledger.close supply root).Serves (.numbered left.supply.issued) number part := by
  rcases visit with ⟨⟨before, term, walked⟩, kept, _, _⟩
  cases walked with
  | letIn ofBound ofBody =>
      exact (kept.terms number (Nat.le_refl _) (Nat.lt_add_of_pos_right (Expr.size_pos _))).trans
        (Books.find?_record _ _ _)
  | @binary _ _ op left right place _ afterLeft afterRight leftTerm rightTerm ofLeft ofRight =>
      have leftPositive := left.size_pos
      have rightPositive := right.size_pos
      rw [Expr.size] at kept
      have leave {inner : Books} {first last : Nat} (retains : inner.Retains afterRight first last)
          (lower : number < first) (upper : last ≤ number + (1 + left.size + right.size)) :
          inner.Retains after first last :=
        ((((retains.settle comparison op).equate _ _ _ _).equate _ _ _ _).record (Or.inl lower) _).trans
          (kept.mono (Nat.le_of_lt lower) upper)
      have leftKept := leave (ofRight.retains (Or.inl (Nat.le_refl _))) (Nat.lt_succ_self number) (by omega)
      have rightKept := leave (.refl afterRight (number + 1 + left.size) (number + 1 + left.size + 1))
        (by omega) (by omega)
      change (after.ledger.close supply root).Serves
        (.numbered (afterRight.settle comparison op).supply.issued) number _
      rw [← afterRight.operand_of_shares draw]
      refine ⟨leftTerm, rightTerm,
        (leftKept.terms (number + 1) (Nat.le_refl _) (by omega)).trans ofLeft.find?_root,
        (rightKept.terms _ (Nat.le_refl _) (Nat.lt_succ_self _)).trans ofRight.find?_root, ?_, ?_⟩
      · apply kept.grown.constraints.subset
        exact List.mem_append_left _ (List.mem_append_right _ List.mem_cons_self)
      · apply kept.grown.constraints.subset
        exact List.mem_append_right _ List.mem_cons_self
  | int => cases draw
  | bool => cases draw
  | var found => cases draw
  | ite ofCondition ofConsequent ofAlternate => cases draw
  | unary ofOperand => cases draw

/-- In a program every name in scope was bound by it. -/
theorem Visit.exists_binder {name : Text} {place : Option Position}
    (visit : Visit comparison [] node e books after (.var name place) number scope left) :
    exists binder, binder ∈ after.ledger.binders ∧ e.Innermost node name binder.node number ∧
      after.ledger.nodeTerms.find? number = some binder.term := by
  rcases visit with ⟨⟨before, term, walked⟩, kept, names, _⟩
  have noted := (kept.terms number (Nat.le_refl _) (Nat.lt_succ_self _)).trans walked.find?_root
  cases walked with
  | var found =>
      rcases names name with ⟨binder, listed, innermost, stands⟩ | ⟨_, stands⟩
      · cases found.symm.trans stands
        exact ⟨binder, listed, innermost, noted⟩
      · cases found.symm.trans stands

end Visit

namespace Expr

/-- The constraints of a well-scoped program address its nodes, binders and unknowns as its text does. -/
theorem constraints_addressed (e : Expr) (comparison : Comparison) (wellScoped : e.isWellScoped = true) :
    exists gathered, e.constraints comparison = .ok gathered ∧ gathered.Addresses comparison e := by
  rcases e.constraints_eq_ok wellScoped comparison with ⟨root, books, walked, gathered⟩
  refine ⟨_, gathered, ?_⟩
  have order := e.map_snd_postOrder_perm 0
  rw [← List.range_eq_range'] at order
  have nodes : books.ledger.nodeTerms.keys = (e.postOrder 0).map Prod.snd := by
    rcases walked.nodeTerms_eq with ⟨pairs, keys, terms⟩
    have distinct : (pairs.map Prod.fst).Nodup := by
      rw [keys]
      exact order.nodup_iff.mpr List.nodup_range
    rw [← keys, Table.keys, terms]
    exact congrArg (List.map Prod.fst) (Table.entries_ofList pairs distinct)
  have entered := walked.binders_eq
  have binders : books.ledger.binders.map Binder.binding = e.bindings 0 := by
    rw [entered]
    exact Binder.map_binding_entered [] (e.bindings 0)
  have issued := walked.issued_eq
  constructor
  case nodes => exact nodes
  case nodes_perm => exact nodes ▸ order
  case binders => exact binders
  case binders_perm => exact binders ▸ e.bindings_perm 0
  case binders_nodup =>
      change (books.ledger.binders.map (fun binder => binder.term.key)).Nodup
      rw [entered]
      exact (Binder.counted_nil.entered (e.bindings 0)).nodup_keys
  case uses =>
      intro name place node isUse
      rcases walked.exists_visit isUse with ⟨scope, left, visit⟩
      exact visit.exists_binder
  case unknowns =>
      rw [length_drawers] at issued
      change books.supply.unknowns = _
      rw [Supply.unknowns, issued, Nat.zero_add]
  case unknowns_nodup => exact books.supply.nodup_keys
  case drawn =>
      intro part node isPart draw
      rcases walked.exists_visit isPart with ⟨scope, left, visit⟩
      exact ⟨_, visit.drawn draw, visit.serves draw _ _⟩

/-- A name that is bound in a bound expression, again in its own body, and once more in a branch. -/
def rebound : Expr :=
  letIn "x" (letIn "x" (int 1 none) (var "x" none) none)
    (letIn "x" (binary .eql (var "x" none) (int 0 none) none)
      (ite (var "x" none) (letIn "x" (bool true none) (var "x" none) none) (var "x" none) none) none) none

theorem constraints_addressed_rebound : rebound.isWellScoped = true ∧
    exists gathered, rebound.constraints .int = .ok gathered ∧ gathered.Addresses .int rebound ∧
      gathered.nodeTerms.keys = [2, 3, 1, 6, 7, 5, 9, 11, 12, 10, 13, 8, 4, 0] ∧
      gathered.binders.map Binder.node = [1, 0, 4, 10] ∧ gathered.unknowns.length = 5 := by
  have wellScoped : rebound.isWellScoped = true := by decide
  refine ⟨wellScoped, ?_⟩
  rcases constraints_addressed rebound .int wellScoped with ⟨gathered, found, addresses⟩
  refine ⟨gathered, found, addresses, addresses.nodes, ?_, ?_⟩
  · have nodes := congrArg (List.map Binding.node) addresses.binders
    rwa [List.map_map] at nodes
  · rw [addresses.unknowns]
    rfl

end Expr

end Monotype
