import Monotype.Expr.Parser
import Mathlib.Data.List.Basic

namespace Monotype

/-!
# The grammar of expressions

A derivation tree says how an expression is made of tokens.  Its root belongs to one of
these categories, where `op` is an operator of the level of its operands.

    expression   ::=  conditional  |  operand 0
    conditional  ::=  if expression then expression else expression [end]
    operand i    ::=  operand (i + 1)  |  operand i op operand (i + 1)       for i < 6
    operand 6    ::=  ~ operand 6  |  not operand 6  |  primary
    primary      ::=  number  |  true  |  false  |  identifier  |  ( expression )
                   |  let identifier <- expression in expression end  |  conditional

The optional `end` of a conditional is there only where no binding is open.  The grammar
leaves open how far a conditional reaches and which of several conditionals an `end`
belongs to.  `Tree.Each` speaks of all conditionals of a tree together with the kind of
the token directly behind each of them, so that rules about this can be stated.
-/

abbrev Token.Of (kind : Token.Kind) : Type :=
  { token : Token // token.kind = kind }

/-- The kind of the token that stands in front of the operand. -/
def UnaryOp.kind : UnaryOp -> Token.Kind
  | neg => .symbol .tilde
  | not => .keyword .notWord

/-- The kind of the token that stands between the operands. -/
def BinaryOp.kind : BinaryOp -> Token.Kind
  | or => .keyword .orWord
  | and => .keyword .andWord
  | eql => .symbol .equal
  | lt => .symbol .less
  | le => .symbol .lessEqual
  | gt => .symbol .greater
  | ge => .symbol .greaterEqual
  | add => .symbol .plus
  | sub => .symbol .minus
  | mul => .symbol .star
  | div => .symbol .slash

/-- Tokens that stand between two operands. -/
def Token.Kind.IsOperator (kind : Token.Kind) : Prop :=
  exists op : BinaryOp, kind = op.kind

theorem BinaryOp.ofKind?_eq_some_iff (kind : Token.Kind) (op : BinaryOp) :
    ofKind? kind = some op ↔ kind = op.kind := by
  constructor
  · unfold ofKind?
    split <;> rintro ⟨⟩ <;> rfl
  · rintro rfl
    cases op <;> rfl

theorem BinaryOp.kind_injective {first second : BinaryOp} (same : first.kind = second.kind) :
    first = second := by
  have found := (ofKind?_eq_some_iff first.kind first).mpr rfl
  rw [(ofKind?_eq_some_iff first.kind second).mpr same] at found
  exact (Option.some.inj found).symm

instance : DecidablePred Token.Kind.IsOperator := fun kind =>
  decidable_of_iff ((BinaryOp.ofKind? kind).isSome = true) (by
    rw [Option.isSome_iff_exists]
    exact exists_congr (BinaryOp.ofKind?_eq_some_iff kind))

namespace Frame

theorem openBindings_cons (outer : Nat) {frame : Frame} (frames : List Frame)
    (plain : frame.isBinding = false) :
    openBindings outer (frame :: frames) = openBindings outer frames := by
  rw [openBindings, List.countP_cons_of_neg (ne_true_of_eq_false plain), openBindings]

theorem openBindings_cons_ne_zero (outer : Nat) {frame : Frame} (frames : List Frame)
    (binding : frame.isBinding = true) : openBindings outer (frame :: frames) ≠ 0 := by
  rw [openBindings, List.countP_cons_of_pos binding]
  omega

end Frame

namespace Reading

variable {token : Token} {frames : List Frame} {finished : Expr} {closed : Bool}

/-- No operator that the token could be extends the finished expression. -/
def Unextended (kind : Token.Kind) (frames : List Frame) (closed : Bool) : Prop :=
  forall op : BinaryOp, kind = op.kind -> closed = false -> op.level < Frame.floor frames

theorem extendOr_of_operator {op : BinaryOp} (isOp : token.kind = op.kind)
    (binds : Frame.floor frames ≤ op.level) (otherwise : Unit -> Step) :
    extendOr token frames finished false otherwise = .shift
      ⟨.rightOf op finished (finished.place.getD token.position) :: frames, .operand⟩ := by
  unfold extendOr extend?
  rw [(BinaryOp.ofKind?_eq_some_iff _ op).mpr isOp]
  simp only [binds, and_self, if_true]

theorem extendOr_of_unextended (unextended : Unextended token.kind frames closed)
    (otherwise : Unit -> Step) :
    extendOr token frames finished closed otherwise = otherwise () := by
  unfold extendOr extend?
  cases found : BinaryOp.ofKind? token.kind with
  | none => rfl
  | some op =>
      have isOp := (BinaryOp.ofKind?_eq_some_iff _ op).mp found
      have looser : ¬ (closed = false ∧ Frame.floor frames ≤ op.level) :=
        fun both => Nat.not_le_of_lt (unextended op isOp both.1) both.2
      simp only [looser, if_false]

theorem unextended_of_plain (plain : ¬ token.kind.IsOperator) (frames : List Frame) (closed : Bool) :
    Unextended token.kind frames closed :=
  fun op isOp _ => absurd ⟨op, isOp⟩ plain

end Reading

namespace Grammar

/-- The operators of each level, the loosest first. -/
def operators : (level : Nat) -> List BinaryOp
  | 0 => [.or]
  | 1 => [.and]
  | 2 => [.eql]
  | 3 => [.lt, .le, .gt, .ge]
  | 4 => [.add, .sub]
  | 5 => [.mul, .div]
  | _ => []

theorem mem_operators_iff (op : BinaryOp) (level : Nat) : op ∈ operators level ↔ op.level = level := by
  match level with
  | 0 | 1 | 2 | 3 | 4 | 5 => cases op <;> decide
  | level + 6 =>
      have below : op.level < 6 := op.level_lt_levels
      simp only [operators, List.not_mem_nil, false_iff]
      omega

inductive Category where
  | expression
  | conditional
  | operand (level : Nat)
  | primary

/-- Derivation trees.  `top` says that no binding is open around the tree. -/
inductive Tree : (top : Bool) -> Category -> Type where
  | whole {top : Bool} (inner : Tree top .conditional) : Tree top .expression
  | loosest {top : Bool} (inner : Tree top (.operand 0)) : Tree top .expression
  | conditional {top : Bool}
      (ifWord : Token.Of (.keyword .ifWord)) (condition : Tree top .expression)
      (thenWord : Token.Of (.keyword .thenWord)) (consequent : Tree top .expression)
      (elseWord : Token.Of (.keyword .elseWord)) (alternate : Tree top .expression)
      (closing : Option (Token.Of (.keyword .endWord)))
      (onlyTop : closing.isSome = true -> top = true) : Tree top .conditional
  | tighter {top : Bool} {level : Nat} (below : level < 6)
      (inner : Tree top (.operand (level + 1))) : Tree top (.operand level)
  | binary {top : Bool} {level : Nat} (op : BinaryOp) (fits : op ∈ operators level)
      (left : Tree top (.operand level)) (sign : Token.Of op.kind)
      (right : Tree top (.operand (level + 1))) : Tree top (.operand level)
  | unary {top : Bool} (op : UnaryOp) (sign : Token.Of op.kind) (inner : Tree top (.operand 6)) :
      Tree top (.operand 6)
  | tightest {top : Bool} (inner : Tree top .primary) : Tree top (.operand 6)
  | number {top : Bool} (token : Token.Of .number) (value : Nat)
      (literal : Numeral.value? token.val.text = some value) : Tree top .primary
  | trueWord {top : Bool} (token : Token.Of (.keyword .trueWord)) : Tree top .primary
  | falseWord {top : Bool} (token : Token.Of (.keyword .falseWord)) : Tree top .primary
  | identifier {top : Bool} (token : Token.Of .identifier) : Tree top .primary
  | paren {top : Bool} (leftParen : Token.Of (.symbol .leftParen)) (inner : Tree top .expression)
      (rightParen : Token.Of (.symbol .rightParen)) : Tree top .primary
  | binding {top : Bool} (letWord : Token.Of (.keyword .letWord)) (name : Token.Of .identifier)
      (arrow : Token.Of (.symbol .assign)) (bound : Tree false .expression)
      (inWord : Token.Of (.keyword .inWord)) (body : Tree false .expression)
      (endWord : Token.Of (.keyword .endWord)) : Tree top .primary
  | operandConditional {top : Bool} (inner : Tree top .conditional) : Tree top .primary

namespace Tree

/-- The tokens of a tree from left to right. -/
def yield {top : Bool} {category : Category} : Tree top category -> List Token
  | whole inner => inner.yield
  | loosest inner => inner.yield
  | conditional ifWord condition thenWord consequent elseWord alternate closing _ =>
      ifWord.val :: condition.yield ++ thenWord.val :: consequent.yield ++
        elseWord.val :: alternate.yield ++ closing.toList.map Subtype.val
  | tighter _ inner => inner.yield
  | binary _ _ left sign right => left.yield ++ sign.val :: right.yield
  | unary _ sign inner => sign.val :: inner.yield
  | tightest inner => inner.yield
  | number token _ _ => [token.val]
  | trueWord token => [token.val]
  | falseWord token => [token.val]
  | identifier token => [token.val]
  | paren leftParen inner rightParen => leftParen.val :: inner.yield ++ [rightParen.val]
  | binding letWord name arrow bound inWord body endWord =>
      letWord.val :: name.val :: arrow.val :: bound.yield ++ inWord.val :: body.yield ++ [endWord.val]
  | operandConditional inner => inner.yield

/-- The expression that a tree derives.  A node starts where the first token of its own
stands, and an operator application where its left operand starts. -/
def expr {top : Bool} {category : Category} : Tree top category -> Expr
  | whole inner => inner.expr
  | loosest inner => inner.expr
  | conditional ifWord condition _ consequent _ alternate _ _ =>
      .ite condition.expr consequent.expr alternate.expr (some ifWord.val.position)
  | tighter _ inner => inner.expr
  | binary op _ left _ right => .binary op left.expr right.expr left.expr.place
  | unary op sign inner => .unary op inner.expr (some sign.val.position)
  | tightest inner => inner.expr
  | number token value _ => .int value (some token.val.position)
  | trueWord token => .bool true (some token.val.position)
  | falseWord token => .bool false (some token.val.position)
  | identifier token => .var token.val.text (some token.val.position)
  | paren _ inner _ => inner.expr
  | binding letWord name _ bound _ body _ =>
      .letIn name.val.text bound.expr body.expr (some letWord.val.position)
  | operandConditional inner => inner.expr

/-- Whether a conditional has an `end` of its own. -/
def hasEnd {top : Bool} : Tree top .conditional -> Bool
  | conditional _ _ _ _ _ _ closing _ => closing.isSome

/-- Whether the last token of a tree is the `end` of a conditional. -/
def lastIsEnd {top : Bool} {category : Category} : Tree top category -> Bool
  | whole inner => inner.lastIsEnd
  | loosest inner => inner.lastIsEnd
  | conditional _ _ _ _ _ alternate closing _ => closing.isSome || alternate.lastIsEnd
  | tighter _ inner => inner.lastIsEnd
  | binary _ _ _ _ right => right.lastIsEnd
  | unary _ _ inner => inner.lastIsEnd
  | tightest inner => inner.lastIsEnd
  | number _ _ _ => false
  | trueWord _ => false
  | falseWord _ => false
  | identifier _ => false
  | paren _ _ _ => false
  | binding _ _ _ _ _ _ _ => false
  | operandConditional inner => inner.lastIsEnd

/-- Each conditional of a tree stands in a given relation to the kind of the token
directly behind it, when a token of the kind `next` is directly behind the tree. -/
def Each (holds : forall {top : Bool}, Tree top .conditional -> (next : Token.Kind) -> Prop)
    {top : Bool} {category : Category} : Tree top category -> (next : Token.Kind) -> Prop
  | whole inner, next => inner.Each @holds next
  | loosest inner, next => inner.Each @holds next
  | conditional ifWord condition thenWord consequent elseWord alternate closing onlyTop, next =>
      holds (conditional ifWord condition thenWord consequent elseWord alternate closing onlyTop) next ∧
        condition.Each @holds (.keyword .thenWord) ∧ consequent.Each @holds (.keyword .elseWord) ∧
        alternate.Each @holds (if closing.isSome then .keyword .endWord else next)
  | tighter _ inner, next => inner.Each @holds next
  | binary op _ left _ right, next => left.Each @holds op.kind ∧ right.Each @holds next
  | unary _ _ inner, next => inner.Each @holds next
  | tightest inner, next => inner.Each @holds next
  | number _ _ _, _ => True
  | trueWord _, _ => True
  | falseWord _, _ => True
  | identifier _, _ => True
  | paren _ inner _, _ => inner.Each @holds (.symbol .rightParen)
  | binding _ _ _ bound _ body _, _ =>
      bound.Each @holds (.keyword .inWord) ∧ body.Each @holds (.keyword .endWord)
  | operandConditional inner, next => inner.Each @holds next

/-- Where no binding is open, `end` directly behind a conditional belongs to it. -/
def TakesEnd {top : Bool} (tree : Tree top .conditional) (next : Token.Kind) : Prop :=
  top = true -> tree.hasEnd = false -> next ≠ .keyword .endWord

/-- An operator directly behind a conditional is kept from its last branch by an `end`. -/
def TakesOperators {top : Bool} (tree : Tree top .conditional) (next : Token.Kind) : Prop :=
  next.IsOperator -> tree.lastIsEnd = true

/-- A conditional that takes what it can of the tokens behind it. -/
def Greedy {top : Bool} (tree : Tree top .conditional) (next : Token.Kind) : Prop :=
  tree.TakesEnd next ∧ tree.TakesOperators next

/-- A conditional with no operator directly behind it, and no `end` that it could take. -/
def Clear {top : Bool} (tree : Tree top .conditional) (next : Token.Kind) : Prop :=
  tree.TakesEnd next ∧ ¬ next.IsOperator

variable {top : Bool} {category : Category} {level : Nat}

/-! ## Trees and their expressions -/

theorem level_le (tree : Tree top (.operand level)) : level ≤ 6 := by
  cases tree with
  | tighter below inner => omega
  | binary op fits left sign right =>
      rw [← (mem_operators_iff op level).mp fits]
      exact Nat.le_of_lt op.level_lt_levels
  | unary op sign inner => exact Nat.le_refl 6
  | tightest inner => exact Nat.le_refl 6

/-- It is always known where the expression of a tree starts. -/
theorem exists_place (tree : Tree top category) : exists start, tree.expr.place = some start := by
  induction tree with
  | whole inner ih => exact ih
  | loosest inner ih => exact ih
  | conditional ifWord => exact ⟨ifWord.val.position, rfl⟩
  | tighter below inner ih => exact ih
  | binary op fits left sign right leftIh => exact leftIh
  | unary op sign => exact ⟨sign.val.position, rfl⟩
  | tightest inner ih => exact ih
  | number token => exact ⟨token.val.position, rfl⟩
  | trueWord token => exact ⟨token.val.position, rfl⟩
  | falseWord token => exact ⟨token.val.position, rfl⟩
  | identifier token => exact ⟨token.val.position, rfl⟩
  | paren leftParen inner rightParen ih => exact ih
  | binding letWord => exact ⟨letWord.val.position, rfl⟩
  | operandConditional inner ih => exact ih

/-- A tree of a tighter level as a tree of a looser one. -/
def loosen : (steps : Nat) -> Tree top (.operand (level + steps)) -> Tree top (.operand level)
  | 0, tree => tree
  | steps + 1, tree =>
      loosen steps (.tighter (by have bound := tree.level_le; omega) tree)

theorem yield_loosen (steps : Nat) (tree : Tree top (.operand (level + steps))) :
    (tree.loosen steps).yield = tree.yield := by
  induction steps with
  | zero => rfl
  | succ steps ih => exact ih (.tighter _ tree)

theorem expr_loosen (steps : Nat) (tree : Tree top (.operand (level + steps))) :
    (tree.loosen steps).expr = tree.expr := by
  induction steps with
  | zero => rfl
  | succ steps ih => exact ih (.tighter _ tree)

theorem each_loosen (holds : forall {top : Bool}, Tree top .conditional -> Token.Kind -> Prop)
    (steps : Nat) (tree : Tree top (.operand (level + steps))) (next : Token.Kind) :
    (tree.loosen steps).Each @holds next ↔ tree.Each @holds next := by
  induction steps with
  | zero => rfl
  | succ steps ih => exact ih (.tighter _ tree)

theorem exists_looser {lower : Nat} (tree : Tree top (.operand level)) (le : lower ≤ level) :
    exists looser : Tree top (.operand lower), looser.yield = tree.yield ∧ looser.expr = tree.expr ∧
      forall (holds : forall {top : Bool}, Tree top .conditional -> Token.Kind -> Prop)
        (next : Token.Kind), tree.Each @holds next -> looser.Each @holds next := by
  rcases Nat.exists_eq_add_of_le le with ⟨steps, rfl⟩
  exact ⟨tree.loosen steps, yield_loosen steps tree, expr_loosen steps tree,
    fun holds next => (each_loosen @holds steps tree next).mpr⟩

def ofPrimary (inner : Tree top .primary) : Tree top .expression :=
  .loosest (loosen 6 (.tightest inner))

theorem yield_ofPrimary (inner : Tree top .primary) : inner.ofPrimary.yield = inner.yield :=
  yield_loosen 6 (.tightest inner)

theorem expr_ofPrimary (inner : Tree top .primary) : inner.ofPrimary.expr = inner.expr :=
  expr_loosen 6 (.tightest inner)

theorem each_ofPrimary (holds : forall {top : Bool}, Tree top .conditional -> Token.Kind -> Prop)
    (inner : Tree top .primary) (next : Token.Kind) :
    inner.ofPrimary.Each @holds next ↔ inner.Each @holds next :=
  each_loosen @holds 6 (.tightest inner) next

end Tree

end Grammar

end Monotype
