import Monotype.Proofs.Table
import Monotype.Proofs.Walk

namespace Monotype

/-!
# What a walk leaves in the books

Books only grow: equations and binders are added at the end, and unknowns are issued
in order.  A term is known to the books if it can have been handed out already, so the
next unknown and the next binder are new.  The books stay consistent: their equations
are between known terms, and each term they note for a node or a binder is a type or
stands in an equation.
-/

namespace Books

variable {books between after : Books}

/-! ## Growth -/

/-- The second books hold everything that the first books hold. -/
structure Extends (books after : Books) : Prop where
  constraints : books.ledger.constraints <+: after.ledger.constraints
  binders : books.ledger.binders <+: after.ledger.binders
  issued : books.supply.issued ≤ after.supply.issued

namespace Extends

theorem refl (books : Books) : books.Extends books :=
  ⟨List.prefix_rfl, List.prefix_rfl, Nat.le_refl _⟩

theorem trans (first : books.Extends between) (second : between.Extends after) :
    books.Extends after :=
  ⟨first.constraints.trans second.constraints, first.binders.trans second.binders,
    Nat.le_trans first.issued second.issued⟩

theorem equate (left right : Term) (node : Nat) (reason : Text) (grown : books.Extends after) :
    books.Extends (after.equate left right node reason) :=
  grown.trans ⟨List.prefix_append _ _, List.prefix_rfl, Nat.le_refl _⟩

theorem enter (name : Text) (node : Nat) (place : Option Position) (grown : books.Extends after) :
    books.Extends (after.enter name node place) :=
  grown.trans ⟨List.prefix_rfl, List.prefix_append _ _, Nat.le_refl _⟩

theorem record (node : Nat) (term : Term) (grown : books.Extends after) :
    books.Extends (after.record node term) :=
  grown.trans ⟨List.prefix_rfl, List.prefix_rfl, Nat.le_refl _⟩

theorem issue (grown : books.Extends after) : books.Extends after.issue :=
  grown.trans ⟨List.prefix_rfl, List.prefix_rfl, Nat.le_succ _⟩

theorem settle (comparison : Comparison) (op : BinaryOp) (grown : books.Extends after) :
    books.Extends (after.settle comparison op) := by
  unfold Books.settle
  cases Gather.operandType? comparison op with
  | some type => exact grown
  | none => exact grown.issue

end Extends

end Books

/-- A walk only adds to the books. -/
theorem Walked.grown {comparison : Comparison} {env : Env Term} {node : Nat} {e : Expr}
    {books after : Books} {term : Term} (walked : Walked comparison env node e books term after) :
    books.Extends after := by
  induction walked with
  | int => exact (Books.Extends.refl _).record _ _
  | bool => exact (Books.Extends.refl _).record _ _
  | var found => exact (Books.Extends.refl _).record _ _
  | letIn ofBound ofBody boundIh bodyIh =>
      have body := ((boundIh.enter _ _ _).equate _ _ _ _).trans bodyIh
      exact (body.issue.equate _ _ _ _).record _ _
  | ite ofCondition ofConsequent ofAlternate conditionIh consequentIh alternateIh =>
      have branches := (conditionIh.trans consequentIh).trans alternateIh
      exact ((branches.equate _ _ _ _).equate _ _ _ _).record _ _
  | unary ofOperand ih => exact (ih.equate _ _ _ _).record _ _
  | binary ofLeft ofRight leftIh rightIh =>
      have operands := leftIh.trans rightIh
      exact (((operands.settle _ _).equate _ _ _ _).equate _ _ _ _).record _ _

namespace Books

variable {books after : Books} {term : Term}

/-! ## Known terms -/

/-- The terms that the books can have handed out. -/
def Knows (books : Books) : Term -> Prop
  | .ground _ => True
  | .unknown number _ => number ≤ books.supply.issued
  | .binder name index => index < books.ledger.binders.countP (fun binder => binder.name = name)

theorem Extends.knows (grown : books.Extends after) (known : books.Knows term) : after.Knows term := by
  cases term with
  | ground type => trivial
  | unknown number label =>
      have issued := grown.issued
      change number ≤ books.supply.issued at known
      change number ≤ after.supply.issued
      omega
  | binder name index =>
      have counted : books.ledger.binders.countP (fun binder => binder.name = name) ≤
          after.ledger.binders.countP (fun binder => binder.name = name) :=
        grown.binders.sublist.countP_le
      change index < (books.ledger.binders.countP (fun binder => binder.name = name) : Nat) at known
      change index < (after.ledger.binders.countP (fun binder => binder.name = name) : Nat)
      omega

theorem knows_ground (books : Books) (type : Ground) : books.Knows (.ground type) :=
  trivial

/-- The next unknown is new. -/
theorem key_ne_unknown (known : books.Knows term) : term.key ≠ books.unknown.key := by
  intro same
  rcases Term.eq_unknown_of_key same with ⟨label, rfl⟩
  change (books.supply.issued + 1 : Int) ≤ books.supply.issued at known
  omega

/-- The next binder is new. -/
theorem key_ne_binderTerm (known : books.Knows term) (name : Text) :
    term.key ≠ (books.ledger.binderTerm name).key := by
  intro same
  rw [Term.eq_binder_of_key same] at known
  change (_ : Int) < _ at known
  omega

theorem knows_unknown_issue (books : Books) : books.issue.Knows books.unknown := by
  change (books.supply.issued + 1 : Int) ≤ (books.supply.issued + 1 : Nat)
  omega

theorem knows_binderTerm_enter (books : Books) (name : Text) (node : Nat) (place : Option Position) :
    (books.enter name node place).Knows (books.ledger.binderTerm name) := by
  change (_ : Int) < ((books.ledger.binders ++ [_]).countP _ : Nat)
  rw [List.countP_append, List.countP_singleton, if_pos (decide_eq_true rfl)]
  omega

theorem knows_operand (books : Books) (comparison : Comparison) (op : BinaryOp) :
    (books.settle comparison op).Knows (books.operand comparison op) := by
  unfold operand settle
  cases Gather.operandType? comparison op with
  | some type => trivial
  | none => exact books.knows_unknown_issue

/-! ## Consistent books -/

/-- A term that is known and that is a type or stands in an equation. -/
structure Accounts (books : Books) (term : Term) : Prop where
  known : books.Knows term
  mentioned : term.isGround = true ∨
    exists constraint, constraint ∈ books.ledger.constraints ∧
      (constraint.left = term ∨ constraint.right = term)

theorem accounts_ground (books : Books) (type : Ground) : books.Accounts (.ground type) :=
  ⟨books.knows_ground type, Or.inl rfl⟩

theorem Extends.accounts (grown : books.Extends after) (accounted : books.Accounts term) :
    after.Accounts term := by
  refine ⟨grown.knows accounted.known, ?_⟩
  rcases accounted.mentioned with ground | ⟨constraint, listed, side⟩
  · exact Or.inl ground
  · exact Or.inr ⟨constraint, grown.constraints.subset listed, side⟩

theorem accounts_left (known : books.Knows term) (right : Term) (node : Nat) (reason : Text) :
    (books.equate term right node reason).Accounts term :=
  ⟨known, Or.inr ⟨_, List.mem_append_right _ List.mem_cons_self, Or.inl rfl⟩⟩

/-- Equations are between known terms, and all noted terms are accounted for. -/
structure Consistent (books : Books) : Prop where
  constraints : forall constraint, constraint ∈ books.ledger.constraints ->
    books.Knows constraint.left ∧ books.Knows constraint.right
  nodes : forall entry, entry ∈ books.ledger.nodeTerms.entries -> books.Accounts entry.2
  binders : forall binder, binder ∈ books.ledger.binders -> books.Accounts binder.term

theorem consistent_empty : ({} : Books).Consistent where
  constraints := fun _ listed => nomatch listed
  nodes := fun _ listed => nomatch listed
  binders := fun _ listed => nomatch listed

namespace Consistent

theorem extend (consistent : books.Consistent) (grown : books.Extends after)
    (constraints : forall constraint, constraint ∈ after.ledger.constraints ->
      constraint ∈ books.ledger.constraints ∨
        after.Knows constraint.left ∧ after.Knows constraint.right)
    (nodes : forall entry, entry ∈ after.ledger.nodeTerms.entries ->
      entry ∈ books.ledger.nodeTerms.entries ∨ after.Accounts entry.2)
    (binders : forall binder, binder ∈ after.ledger.binders ->
      binder ∈ books.ledger.binders ∨ after.Accounts binder.term) : after.Consistent where
  constraints := by
    intro constraint listed
    rcases constraints constraint listed with earlier | new
    · have known := consistent.constraints constraint earlier
      exact ⟨grown.knows known.1, grown.knows known.2⟩
    · exact new
  nodes := by
    intro entry listed
    rcases nodes entry listed with earlier | new
    · exact grown.accounts (consistent.nodes entry earlier)
    · exact new
  binders := by
    intro binder listed
    rcases binders binder listed with earlier | new
    · exact grown.accounts (consistent.binders binder earlier)
    · exact new

theorem equate (consistent : books.Consistent) {left right : Term} (leftKnown : books.Knows left)
    (rightKnown : books.Knows right) (node : Nat) (reason : Text) :
    (books.equate left right node reason).Consistent := by
  refine consistent.extend ((Extends.refl books).equate left right node reason) ?_
    (fun _ listed => Or.inl listed) (fun _ listed => Or.inl listed)
  intro constraint listed
  rcases List.mem_append.mp listed with earlier | new
  · exact Or.inl earlier
  · rw [List.mem_singleton.mp new]
    exact Or.inr ⟨leftKnown, rightKnown⟩

theorem record (consistent : books.Consistent) (accounted : books.Accounts term) (node : Nat) :
    (books.record node term).Consistent ∧ (books.record node term).Accounts term := by
  have grown := (Extends.refl books).record node term
  refine ⟨consistent.extend grown (fun _ listed => Or.inl listed) ?_ (fun _ listed => Or.inl listed),
    grown.accounts accounted⟩
  intro entry listed
  rcases Table.mem_insertEntry listed with earlier | rfl
  · exact Or.inl earlier
  · exact Or.inr (grown.accounts accounted)

theorem issue (consistent : books.Consistent) : books.issue.Consistent :=
  consistent.extend (Extends.refl books).issue (fun _ listed => Or.inl listed)
    (fun _ listed => Or.inl listed) (fun _ listed => Or.inl listed)

theorem settle (consistent : books.Consistent) (comparison : Comparison) (op : BinaryOp) :
    (books.settle comparison op).Consistent := by
  unfold Books.settle
  cases Gather.operandType? comparison op with
  | some type => exact consistent
  | none => exact consistent.issue

/-- A binder is accounted for as soon as it is equated with its bound term. -/
theorem enter (consistent : books.Consistent) (name : Text) (node : Nat) (place : Option Position)
    (known : books.Knows term) (reason : Text) :
    ((books.enter name node place).equate (books.ledger.binderTerm name) term node reason).Consistent := by
  have grown := ((Extends.refl books).enter name node place).equate (books.ledger.binderTerm name)
    term node reason
  have binderKnown := books.knows_binderTerm_enter name node place
  refine consistent.extend grown ?_ (fun _ listed => Or.inl listed) ?_
  · intro constraint listed
    rcases List.mem_append.mp listed with earlier | new
    · exact Or.inl earlier
    · rw [List.mem_singleton.mp new]
      exact Or.inr ⟨binderKnown, grown.knows known⟩
  · intro binder listed
    rcases List.mem_append.mp listed with earlier | new
    · exact Or.inl earlier
    · rw [List.mem_singleton.mp new]
      exact Or.inr (accounts_left binderKnown term node reason)

end Consistent

/-- All terms in scope are accounted for. -/
def Scopes (books : Books) (env : Env Term) : Prop :=
  forall name found, env.find? name = some found -> books.Accounts found

theorem scopes_empty (books : Books) : books.Scopes [] :=
  fun _ _ isFound => nomatch isFound

theorem Scopes.mono {env : Env Term} (scopes : books.Scopes env) (grown : books.Extends after) :
    after.Scopes env :=
  fun name found isFound => grown.accounts (scopes name found isFound)

theorem Scopes.bind {env : Env Term} (scopes : books.Scopes env) (name : Text) (node : Nat)
    (place : Option Position) (term : Term) (reason : Text) :
    ((books.enter name node place).equate (books.ledger.binderTerm name) term node reason).Scopes
      (env.bind name (books.ledger.binderTerm name)) := by
  intro probe found isFound
  rw [Env.find?_bind] at isFound
  by_cases same : name = probe
  · rw [if_pos same] at isFound
    cases isFound
    exact accounts_left (books.knows_binderTerm_enter name node place) _ _ _
  · rw [if_neg same] at isFound
    have grown := ((Extends.refl books).enter name node place).equate (books.ledger.binderTerm name)
      term node reason
    exact grown.accounts (scopes probe found isFound)

end Books

/-- A walk keeps the books consistent, and the term that it gives is accounted for. -/
theorem Walked.consistent {comparison : Comparison} {env : Env Term} {node : Nat} {e : Expr}
    {books after : Books} {term : Term} (walked : Walked comparison env node e books term after)
    (consistent : books.Consistent)
    (scopes : books.Scopes env) :
    after.Consistent ∧ after.Accounts term := by
  induction walked with
  | int => exact consistent.record (Books.accounts_ground _ _) _
  | bool => exact consistent.record (Books.accounts_ground _ _) _
  | var found => exact consistent.record (scopes _ _ found) _
  | @letIn env node name _ _ place books afterBound afterBody boundTerm bodyTerm ofBound ofBody boundIh bodyIh =>
      rcases boundIh consistent scopes with ⟨boundConsistent, boundAccounted⟩
      have entered := boundConsistent.enter name node place boundAccounted.known
        ("binding of " ++ Text.quoted name)
      have inBody := (scopes.mono ofBound.grown).bind name node place boundTerm
        ("binding of " ++ Text.quoted name)
      rcases bodyIh entered inBody with ⟨bodyConsistent, bodyAccounted⟩
      have resultKnown := afterBody.knows_unknown_issue
      have bodyKnown := (Books.Extends.refl afterBody).issue.knows bodyAccounted.known
      exact (bodyConsistent.issue.equate resultKnown bodyKnown _ _).record
        (Books.accounts_left resultKnown _ _ _) _
  | @ite _ node _ _ _ _ _ _ _ afterAlternate conditionTerm consequentTerm alternateTerm ofCondition ofConsequent
      ofAlternate conditionIh consequentIh alternateIh =>
      rcases conditionIh consistent scopes with ⟨conditionConsistent, conditionAccounted⟩
      rcases consequentIh conditionConsistent (scopes.mono ofCondition.grown) with
        ⟨consequentConsistent, consequentAccounted⟩
      have beforeAlternate := ofCondition.grown.trans ofConsequent.grown
      rcases alternateIh consequentConsistent (scopes.mono beforeAlternate) with
        ⟨alternateConsistent, alternateAccounted⟩
      have conditionKnown := (ofConsequent.grown.trans ofAlternate.grown).knows conditionAccounted.known
      have consequentKept := ofAlternate.grown.accounts consequentAccounted
      have tested := alternateConsistent.equate conditionKnown (Books.knows_ground _ .bool) node
        "condition must be bool"
      have joined := tested.equate consequentKept.known alternateAccounted.known node
        "branches must agree"
      have grown := ((Books.Extends.refl afterAlternate).equate conditionTerm .bool node
        "condition must be bool").equate consequentTerm alternateTerm node "branches must agree"
      exact joined.record (grown.accounts consequentKept) node
  | unary ofOperand ih =>
      rcases ih consistent scopes with ⟨operandConsistent, operandAccounted⟩
      exact (operandConsistent.equate operandAccounted.known (Books.knows_ground _ _) _ _).record
        (Books.accounts_ground _ _) _
  | @binary _ _ op _ _ _ _ _ afterRight _ _ ofLeft ofRight leftIh rightIh =>
      rcases leftIh consistent scopes with ⟨leftConsistent, leftAccounted⟩
      rcases rightIh leftConsistent (scopes.mono ofLeft.grown) with
        ⟨rightConsistent, rightAccounted⟩
      have settled := (Books.Extends.refl afterRight).settle comparison op
      have sharedKnown := afterRight.knows_operand comparison op
      have leftKnown := (ofRight.grown.settle comparison op).knows leftAccounted.known
      have rightKnown := settled.knows rightAccounted.known
      exact (((rightConsistent.settle comparison op).equate leftKnown sharedKnown _ _).equate rightKnown
        sharedKnown _ _).record (Books.accounts_ground _ _) _

/-! ## Nodes with a term -/

namespace Books

def nodes (books : Books) : List Nat :=
  books.ledger.nodeTerms.keys

theorem ledger_settle (books : Books) (comparison : Comparison) (op : BinaryOp) :
    (books.settle comparison op).ledger = books.ledger := by
  unfold settle
  cases Gather.operandType? comparison op with
  | some type => rfl
  | none => rfl

theorem nodes_settle (books : Books) (comparison : Comparison) (op : BinaryOp) :
    (books.settle comparison op).nodes = books.nodes := by
  rw [nodes, ledger_settle, nodes]

theorem mem_nodes_record {books : Books} {node probe : Nat} {term : Term}
    (member : probe ∈ (books.record node term).nodes) : probe ∈ books.nodes ∨ probe = node := by
  change probe ∈ (books.ledger.nodeTerms.insert node term).keys at member
  rw [Table.keys_insert] at member
  by_cases present : node ∈ books.ledger.nodeTerms.keys
  · rw [if_pos present] at member
    exact Or.inl member
  · rw [if_neg present, List.mem_append, List.mem_singleton] at member
    exact member

end Books

/-- A walk gives terms to the nodes of its expression only. -/
theorem Walked.mem_nodes {comparison : Comparison} {env : Env Term} {node : Nat} {e : Expr}
    {books after : Books} {term : Term} (walked : Walked comparison env node e books term after)
    {probe : Nat} (member : probe ∈ after.nodes) :
    probe ∈ books.nodes ∨ node ≤ probe ∧ probe < node + e.size := by
  induction walked with
  | int =>
      rcases Books.mem_nodes_record member with earlier | rfl
      · exact Or.inl earlier
      · exact Or.inr ⟨Nat.le_refl _, Nat.lt_succ_self _⟩
  | bool =>
      rcases Books.mem_nodes_record member with earlier | rfl
      · exact Or.inl earlier
      · exact Or.inr ⟨Nat.le_refl _, Nat.lt_succ_self _⟩
  | var found =>
      rcases Books.mem_nodes_record member with earlier | rfl
      · exact Or.inl earlier
      · exact Or.inr ⟨Nat.le_refl _, Nat.lt_succ_self _⟩
  | letIn ofBound ofBody boundIh bodyIh =>
      rw [Expr.size]
      rcases Books.mem_nodes_record member with inBody | rfl
      · rcases bodyIh inBody with inBound | range
        · rcases boundIh inBound with earlier | range
          · exact Or.inl earlier
          · right
            omega
        · right
          omega
      · right
        omega
  | ite ofCondition ofConsequent ofAlternate conditionIh consequentIh alternateIh =>
      rw [Expr.size]
      rcases Books.mem_nodes_record member with inAlternate | rfl
      · rcases alternateIh inAlternate with inConsequent | range
        · rcases consequentIh inConsequent with inCondition | range
          · rcases conditionIh inCondition with earlier | range
            · exact Or.inl earlier
            · right
              omega
          · right
            omega
        · right
          omega
      · right
        omega
  | unary ofOperand ih =>
      rw [Expr.size]
      rcases Books.mem_nodes_record member with inOperand | rfl
      · rcases ih inOperand with earlier | range
        · exact Or.inl earlier
        · right
          omega
      · right
        omega
  | binary ofLeft ofRight leftIh rightIh =>
      rw [Expr.size]
      rcases Books.mem_nodes_record member with inRight | rfl
      · have inRight := (Books.nodes_settle _ _ _) ▸ inRight
        rcases rightIh inRight with inLeft | range
        · rcases leftIh inLeft with earlier | range
          · exact Or.inl earlier
          · right
            omega
        · right
          omega
      · right
        omega

namespace Books

/-- No node in a range has a term yet. -/
def Vacant (books : Books) (first last : Nat) : Prop :=
  forall probe, first ≤ probe -> probe < last -> probe ∉ books.nodes

theorem Vacant.mono {books : Books} {first last first' last' : Nat} (vacant : books.Vacant first last)
    (lower : first ≤ first') (upper : last' ≤ last) : books.Vacant first' last' :=
  fun probe from_le lt_to =>
    vacant probe (Nat.le_trans lower from_le) (Nat.lt_of_lt_of_le lt_to upper)

theorem Vacant.equate {books : Books} {first last : Nat} (vacant : books.Vacant first last)
    (left right : Term) (node : Nat) (reason : Text) :
    (books.equate left right node reason).Vacant first last :=
  vacant

theorem Vacant.issue {books : Books} {first last : Nat} (vacant : books.Vacant first last) :
    books.issue.Vacant first last :=
  vacant

theorem Vacant.settle {books : Books} {first last : Nat} (vacant : books.Vacant first last)
    (comparison : Comparison) (op : BinaryOp) : (books.settle comparison op).Vacant first last := by
  unfold Vacant
  rwa [books.nodes_settle]

theorem vacant_empty (first last : Nat) : ({} : Books).Vacant first last :=
  fun _ _ _ listed => nomatch listed

end Books

/-- A walk leaves the nodes outside its expression alone. -/
theorem Walked.vacant {comparison : Comparison} {env : Env Term} {node : Nat} {e : Expr}
    {books after : Books} {term : Term} (walked : Walked comparison env node e books term after)
    {first last : Nat} (apart : last ≤ node ∨ node + e.size ≤ first)
    (vacant : books.Vacant first last) : after.Vacant first last := by
  intro probe from_le lt_to member
  rcases walked.mem_nodes member with earlier | range
  · exact vacant probe from_le lt_to earlier
  · omega

end Monotype
