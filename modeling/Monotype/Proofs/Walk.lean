import Monotype.Constraint.Gather
import Monotype.Proofs.Scoping
import Monotype.Proofs.Term

namespace Monotype

/-!
# What a walk does to the books

`Walked` says by rules which term a walk gives to an expression and how it leaves the
books, one rule for each shape of expression.  Every later fact about a walk is an
induction over these rules.  A walk over an expression whose free names are bound
never stops midway.
-/

namespace Books

def equate (books : Books) (left right : Term) (node : Nat) (reason : Text) : Books :=
  { books with ledger := books.ledger.equate left right node reason }

def enter (books : Books) (name : Text) (node : Nat) (place : Option Position) : Books :=
  { books with ledger := (books.ledger.enter name node place).2 }

def record (books : Books) (node : Nat) (term : Term) : Books :=
  { books with ledger := books.ledger.record node term }

def unknown (books : Books) : Term :=
  books.supply.next.1

/-- The books after the next unknown has been issued. -/
def issue (books : Books) : Books :=
  { books with supply := books.supply.next.2 }

/-- The term that the operands of an operator are equated with. -/
def operand (books : Books) (comparison : Comparison) (op : BinaryOp) : Term :=
  match Gather.operandType? comparison op with
  | some type => .ground type
  | none => books.unknown

/-- The books after the term for the operands has been settled. -/
def settle (books : Books) (comparison : Comparison) (op : BinaryOp) : Books :=
  match Gather.operandType? comparison op with
  | some _ => books
  | none => books.issue

end Books

/-- A walk over the expression whose root has number `node` gives it `term` and takes
the books from the first to the second state. -/
inductive Walked (comparison : Comparison) :
    Env Term -> (node : Nat) -> Expr -> Books -> (term : Term) -> Books -> Prop where
  | int {env : Env Term} {node : Nat} {value : Int} {place : Option Position} {books : Books} :
      Walked comparison env node (.int value place) books .int (books.record node .int)
  | bool {env : Env Term} {node : Nat} {value : Bool} {place : Option Position} {books : Books} :
      Walked comparison env node (.bool value place) books .bool (books.record node .bool)
  | var {env : Env Term} {node : Nat} {name : Text} {place : Option Position} {books : Books}
      {term : Term} (found : env.find? name = some term) :
      Walked comparison env node (.var name place) books term (books.record node term)
  | letIn {env : Env Term} {node : Nat} {name : Text} {bound body : Expr} {place : Option Position}
      {books afterBound afterBody : Books} {boundTerm bodyTerm : Term}
      (ofBound : Walked comparison env (node + 1) bound books boundTerm afterBound)
      (ofBody : Walked comparison (env.bind name (afterBound.ledger.binderTerm name))
        (node + 1 + bound.size) body
        ((afterBound.enter name node place).equate (afterBound.ledger.binderTerm name) boundTerm node
          ("binding of " ++ Text.quoted name))
        bodyTerm afterBody) :
      Walked comparison env node (.letIn name bound body place) books afterBody.unknown
        ((afterBody.issue.equate afterBody.unknown bodyTerm node "let result is its body").record node
          afterBody.unknown)
  | ite {env : Env Term} {node : Nat} {condition consequent alternate : Expr}
      {place : Option Position} {books afterCondition afterConsequent afterAlternate : Books}
      {conditionTerm consequentTerm alternateTerm : Term}
      (ofCondition : Walked comparison env (node + 1) condition books conditionTerm afterCondition)
      (ofConsequent : Walked comparison env (node + 1 + condition.size) consequent afterCondition
        consequentTerm afterConsequent)
      (ofAlternate : Walked comparison env (node + 1 + condition.size + consequent.size) alternate
        afterConsequent alternateTerm afterAlternate) :
      Walked comparison env node (.ite condition consequent alternate place) books consequentTerm
        (((afterAlternate.equate conditionTerm .bool node "condition must be bool").equate
          consequentTerm alternateTerm node "branches must agree").record node consequentTerm)
  | unary {env : Env Term} {node : Nat} {op : UnaryOp} {operand : Expr} {place : Option Position}
      {books after : Books} {term : Term}
      (ofOperand : Walked comparison env (node + 1) operand books term after) :
      Walked comparison env node (.unary op operand place) books (.ground (Gather.unaryType op))
        ((after.equate term (.ground (Gather.unaryType op)) node ("operand of " ++ op.name)).record
          node (.ground (Gather.unaryType op)))
  | binary {env : Env Term} {node : Nat} {op : BinaryOp} {left right : Expr}
      {place : Option Position} {books afterLeft afterRight : Books} {leftTerm rightTerm : Term}
      (ofLeft : Walked comparison env (node + 1) left books leftTerm afterLeft)
      (ofRight : Walked comparison env (node + 1 + left.size) right afterLeft rightTerm afterRight) :
      Walked comparison env node (.binary op left right place) books
        (.ground (Gather.resultType op))
        ((((afterRight.settle comparison op).equate leftTerm (afterRight.operand comparison op) node
            ("left operand of " ++ op.name)).equate rightTerm (afterRight.operand comparison op) node
            ("right operand of " ++ op.name)).record node (.ground (Gather.resultType op)))

namespace Gather

theorem bind_eq_ok {A B : Type} {first : Gather A} {next : A -> Gather B} {books after : Books}
    {result : B} (ran : (first >>= next) books = .ok result after) :
    exists value between, first books = .ok value between ∧ next value between = .ok result after := by
  change EStateM.bind first next books = .ok result after at ran
  unfold EStateM.bind at ran
  cases outcome : first books with
  | ok value between =>
      rw [outcome] at ran
      exact ⟨value, between, rfl, ran⟩
  | error fault between =>
      rw [outcome] at ran
      cases ran

theorem operandTerm_eq (comparison : Comparison) (op : BinaryOp) (books : Books) :
    operandTerm comparison op books =
      .ok (books.operand comparison op) (books.settle comparison op) := by
  unfold operandTerm Books.operand Books.settle
  cases operandType? comparison op with
  | some type => rfl
  | none => rfl

theorem walked_of_walk {comparison : Comparison} {env : Env Term} {node : Nat} {e : Expr}
    {books after : Books} {term : Term} (ran : walk comparison env node e books = .ok term after) :
    Walked comparison env node e books term after := by
  induction e generalizing env node books term after with
  | int value place =>
      cases ran
      exact .int
  | bool value place =>
      cases ran
      exact .bool
  | var name place =>
      rw [walk] at ran
      cases found : env.find? name with
      | none =>
          rw [found] at ran
          cases ran
      | some binder =>
          rw [found] at ran
          cases ran
          exact .var found
  | letIn name bound body place boundIh bodyIh =>
      rw [walk] at ran
      rcases bind_eq_ok ran with ⟨boundTerm, afterBound, ranBound, ran⟩
      rcases bind_eq_ok ran with ⟨binder, _, entered, ran⟩
      cases entered
      rcases bind_eq_ok ran with ⟨_, _, equated, ran⟩
      cases equated
      rcases bind_eq_ok ran with ⟨bodyTerm, afterBody, ranBody, ran⟩
      cases ran
      exact .letIn (boundIh ranBound) (bodyIh ranBody)
  | ite condition consequent alternate place conditionIh consequentIh alternateIh =>
      rw [walk] at ran
      rcases bind_eq_ok ran with ⟨conditionTerm, afterCondition, ranCondition, ran⟩
      rcases bind_eq_ok ran with ⟨consequentTerm, afterConsequent, ranConsequent, ran⟩
      rcases bind_eq_ok ran with ⟨alternateTerm, afterAlternate, ranAlternate, ran⟩
      cases ran
      exact .ite (conditionIh ranCondition) (consequentIh ranConsequent) (alternateIh ranAlternate)
  | unary op operand place ih =>
      rw [walk] at ran
      rcases bind_eq_ok ran with ⟨operandTerm, afterOperand, ranOperand, ran⟩
      cases ran
      exact .unary (ih ranOperand)
  | binary op left right place leftIh rightIh =>
      rw [walk] at ran
      rcases bind_eq_ok ran with ⟨leftTerm, afterLeft, ranLeft, ran⟩
      rcases bind_eq_ok ran with ⟨rightTerm, afterRight, ranRight, ran⟩
      rcases bind_eq_ok ran with ⟨shared, settled, drawn, ran⟩
      rw [operandTerm_eq] at drawn
      cases drawn
      cases ran
      exact .binary (leftIh ranLeft) (rightIh ranRight)

/-! ## Walks that reach their end -/

theorem bind_of_ok {A B : Type} {first : Gather A} (next : A -> Gather B) {books between : Books}
    {value : A} (ran : first books = .ok value between) :
    (first >>= next) books = next value between := by
  change EStateM.bind first next books = _
  unfold EStateM.bind
  rw [ran]

theorem enter_eq (name : Text) (node : Nat) (place : Option Position) (books : Books) :
    enter name node place books = .ok (books.ledger.binderTerm name) (books.enter name node place) :=
  rfl

theorem equate_eq (left right : Term) (node : Nat) (reason : Text) (books : Books) :
    equate left right node reason books = .ok () (books.equate left right node reason) :=
  rfl

/-- A walk ends properly if every free name stands for a term. -/
theorem exists_walk_eq_ok (comparison : Comparison) {env : Env Term} (node : Nat) {e : Expr}
    (bound : forall name, name ∈ e.free -> exists term, env.find? name = some term) (books : Books) :
    exists term after, walk comparison env node e books = .ok term after := by
  induction e generalizing env node books with
  | int value place => exact ⟨_, _, rfl⟩
  | bool value place => exact ⟨_, _, rfl⟩
  | var name place =>
      rcases bound name List.mem_cons_self with ⟨term, found⟩
      rw [walk, found]
      exact ⟨_, _, rfl⟩
  | letIn name boundExpr body place boundIh bodyIh =>
      rcases boundIh (node + 1) (fun other free => bound other (List.mem_append_left _ free)) books with
        ⟨boundTerm, afterBound, ranBound⟩
      have inBody : forall other, other ∈ body.free -> exists term,
          (env.bind name (afterBound.ledger.binderTerm name)).find? other = some term := by
        intro other free
        rw [Env.find?_bind]
        by_cases same : name = other
        · exact ⟨_, if_pos same⟩
        · rw [if_neg same]
          apply bound other (List.mem_append_right _ (List.mem_filter.mpr ⟨free, ?_⟩))
          exact decide_eq_true (fun equal => same equal.symm)
      rcases bodyIh (node + 1 + boundExpr.size) inBody
        ((afterBound.enter name node place).equate (afterBound.ledger.binderTerm name) boundTerm node
          ("binding of " ++ Text.quoted name)) with ⟨bodyTerm, afterBody, ranBody⟩
      rw [walk, bind_of_ok _ ranBound, bind_of_ok _ (enter_eq ..), bind_of_ok _ (equate_eq ..),
        bind_of_ok _ ranBody]
      exact ⟨_, _, rfl⟩
  | ite condition consequent alternate place conditionIh consequentIh alternateIh =>
      rcases conditionIh (node + 1)
        (fun name free => bound name (List.mem_append_left _ (List.mem_append_left _ free))) books with
        ⟨conditionTerm, afterCondition, ranCondition⟩
      rcases consequentIh (node + 1 + condition.size)
        (fun name free => bound name (List.mem_append_left _ (List.mem_append_right _ free)))
        afterCondition with ⟨consequentTerm, afterConsequent, ranConsequent⟩
      rcases alternateIh (node + 1 + condition.size + consequent.size)
        (fun name free => bound name (List.mem_append_right _ free)) afterConsequent with
        ⟨alternateTerm, afterAlternate, ranAlternate⟩
      rw [walk, bind_of_ok _ ranCondition, bind_of_ok _ ranConsequent, bind_of_ok _ ranAlternate]
      exact ⟨_, _, rfl⟩
  | unary op operand place ih =>
      rcases ih (node + 1) bound books with ⟨operandTerm, afterOperand, ranOperand⟩
      rw [walk, bind_of_ok _ ranOperand]
      exact ⟨_, _, rfl⟩
  | binary op left right place leftIh rightIh =>
      rcases leftIh (node + 1) (fun name free => bound name (List.mem_append_left _ free)) books with
        ⟨leftTerm, afterLeft, ranLeft⟩
      rcases rightIh (node + 1 + left.size)
        (fun name free => bound name (List.mem_append_right _ free)) afterLeft with
        ⟨rightTerm, afterRight, ranRight⟩
      rw [walk, bind_of_ok _ ranLeft, bind_of_ok _ ranRight, bind_of_ok _ (operandTerm_eq ..)]
      exact ⟨_, _, rfl⟩

/-- A walk over a well-scoped program ends properly, whatever is in the books. -/
theorem exists_program_eq_ok {e : Expr} (wellScoped : e.isWellScoped = true) (comparison : Comparison)
    (node : Nat) (books : Books) :
    exists root after, Walked comparison [] node e books root after ∧
      program comparison node e books = .ok (after.ledger.close after.supply root) after := by
  have bound : forall name, name ∈ e.free -> exists term, Env.find? ([] : Env Term) name = some term := by
    intro name free
    rw [e.isWellScoped_iff.mp wellScoped] at free
    cases free
  rcases exists_walk_eq_ok comparison node bound books with ⟨root, after, ran⟩
  refine ⟨root, after, walked_of_walk ran, ?_⟩
  unfold program
  rw [bind_of_ok _ ran]
  rfl

end Gather

/-- The constraints of a well-scoped program are what a walk leaves in empty books. -/
theorem Expr.constraints_eq_ok {e : Expr} (wellScoped : e.isWellScoped = true) (comparison : Comparison) :
    exists root books, Walked comparison [] 0 e {} root books ∧
      e.constraints comparison = .ok (books.ledger.close books.supply root) := by
  rcases Gather.exists_program_eq_ok wellScoped comparison 0 {} with ⟨root, books, walked, ran⟩
  refine ⟨root, books, walked, ?_⟩
  unfold Expr.constraints
  rw [ran]

end Monotype
