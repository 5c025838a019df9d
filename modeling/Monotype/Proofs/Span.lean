import Monotype.Proofs.Nesting
import Monotype.Proofs.Whereabouts

namespace Monotype

/-!
# Where nodes start

Each node of a program is made of some of its tokens without a gap.  In front of the tokens of its own
a node may have left parentheses, namely those around its left operand.  Behind them comes the token
whose place the node carries: the word of a binding or a conditional, the sign of an operator with one
operand, the token that a leaf is, or the place of the left operand.  Tokens stand one behind the
other, so two bindings never share a place.
-/

/-! ## Places in order -/

namespace Position

/-- A place in an earlier line, or in the same line and further to the left. -/
def Before (first second : Position) : Prop :=
  first.line < second.line ∨ first.line = second.line ∧ first.column < second.column

theorem Before.trans {first second third : Position} (earlier : first.Before second)
    (later : second.Before third) : first.Before third := by
  unfold Before at *
  omega

theorem Before.ne {first second : Position} (before : first.Before second) : first ≠ second := by
  rintro rfl
  unfold Before at before
  omega

theorem before_step (position : Position) (u : CodeUnit) : position.Before (position.step u) := by
  unfold step
  split
  · exact Or.inl (Nat.lt_succ_self _)
  · exact Or.inr ⟨rfl, Nat.lt_succ_self _⟩

theorem before_after {text : Text} (nonempty : text ≠ []) (position : Position) :
    position.Before (position.after text) := by
  induction text generalizing position with
  | nil => exact absurd rfl nonempty
  | cons u rest ih =>
      cases rest with
      | nil => exact before_step position u
      | cons v rest => exact (before_step position u).trans (ih (List.cons_ne_nil v rest) (position.step u))

end Position

namespace Lexeme

theorem pairwise_placed {lexemes : List Lexeme}
    (nonempty : forall lexeme, lexeme ∈ lexemes -> lexeme.text ≠ []) (place : Position) :
    (placed place lexemes).Pairwise (fun first second => first.1.Before second.1) := by
  induction lexemes generalizing place with
  | nil => exact .nil
  | cons lexeme rest ih =>
      rcases List.forall_mem_cons.mp nonempty with ⟨first, later⟩
      refine .cons ?_ (ih later _)
      intro piece member
      rcases exists_of_mem_placed member with ⟨front, _, _, isPlace⟩
      rw [isPlace, ← Position.after_append]
      exact Position.before_after (List.append_ne_nil_of_left_ne_nil first _) place

theorem position_of_token? {place : Position} {lexeme : Lexeme} {token : Token}
    (contributes : lexeme.token? place = some token) : token.position = place := by
  rw [token?] at contributes
  split at contributes
  · cases contributes
    rfl
  · cases contributes

/-- The tokens of a text stand one behind the other. -/
theorem pairwise_tokensAt (text : Text) :
    (tokensAt .start (split text)).Pairwise (fun first second => first.position.Before second.position) := by
  have nonempty : forall lexeme, lexeme ∈ split text -> lexeme.text ≠ [] := by
    intro lexeme member
    rcases exists_first_of_mem member with ⟨u, rest, rfl⟩
    rcases first_text u rest with ⟨tail, shape, _⟩
    rw [shape]
    exact List.cons_ne_nil u tail
  refine (pairwise_placed nonempty .start).filterMap _ ?_
  intro first second before token isFirst other isSecond
  rw [position_of_token? isFirst, position_of_token? isSecond]
  exact before

end Lexeme

theorem Scan.nodup_letPlaces (text : Text) : (Token.letPlaces (run text).tokens).Nodup := by
  rw [tokens_run, Token.letPlaces_append]
  change (_ ++ []).Nodup
  rw [List.append_nil]
  refine List.Pairwise.map _ ?_ ((Lexeme.pairwise_tokensAt text).filter _)
  intro first second before same
  exact before.ne (Option.some.inj same)

/-! ## Nodes and their tokens -/

/-- Whether a token is another one than a left parenthesis. -/
def Token.isProper (token : Token) : Bool :=
  token.kind ≠ .symbol .leftParen

theorem Token.find?_isProper {kind : Token.Kind} (token : Token.Of kind) (other : kind ≠ .symbol .leftParen)
    (rest : List Token) : (token.val :: rest).find? isProper = some token.val := by
  refine List.find?_cons_of_pos ?_
  rw [isProper, token.property]
  exact decide_eq_true other

namespace Grammar

/-- A node with the tokens that it is made of; `start` of the tokens are in front of them. -/
structure Span where
  node : Expr
  start : Nat
  tokens : List Token

namespace Tree

variable {top : Bool} {category : Category}

/-- The root of the expression of a tree, when `start` tokens are in front of the tree. -/
def span (start : Nat) (tree : Tree top category) : Span :=
  ⟨tree.expr, start, tree.yield⟩

/-- The nodes of the expression of a tree with their tokens, when `start` tokens are in front of the
tree.  A node stands in front of its own parts. -/
def spans {top : Bool} {category : Category} (start : Nat) : Tree top category -> List Span
  | whole inner => inner.spans start
  | loosest inner => inner.spans start
  | tree@(conditional _ condition _ consequent _ alternate _ _) =>
      tree.span start :: (condition.spans (start + 1) ++
        consequent.spans (start + (condition.yield.length + 2)) ++
        alternate.spans (start + (condition.yield.length + consequent.yield.length + 3)))
  | tighter _ inner => inner.spans start
  | tree@(binary _ _ left _ right) =>
      tree.span start :: (left.spans start ++ right.spans (start + (left.yield.length + 1)))
  | tree@(unary _ _ inner) => tree.span start :: inner.spans (start + 1)
  | tightest inner => inner.spans start
  | tree@(number _ _ _) => [tree.span start]
  | tree@(trueWord _) => [tree.span start]
  | tree@(falseWord _) => [tree.span start]
  | tree@(identifier _) => [tree.span start]
  | paren _ inner _ => inner.spans (start + 1)
  | tree@(binding _ _ _ bound _ body _) =>
      tree.span start :: (bound.spans (start + 3) ++ body.spans (start + (bound.yield.length + 4)))
  | operandConditional inner => inner.spans start

/-- The nodes of a tree are those of its expression, in order. -/
theorem map_node_spans (tree : Tree top category) (start : Nat) :
    (tree.spans start).map Span.node = tree.expr.parts := by
  induction tree generalizing start with
  | whole inner ih => exact ih start
  | loosest inner ih => exact ih start
  | conditional ifWord condition thenWord consequent elseWord alternate closing onlyTop ihCondition
      ihConsequent ihAlternate =>
      rw [spans, List.map_cons, List.map_append, List.map_append, ihCondition, ihConsequent, ihAlternate]
      rfl
  | tighter below inner ih => exact ih start
  | binary op fits left sign right ihLeft ihRight =>
      rw [spans, List.map_cons, List.map_append, ihLeft, ihRight]
      rfl
  | unary op sign inner ih =>
      rw [spans, List.map_cons, ih]
      rfl
  | tightest inner ih => exact ih start
  | number token value literal => rfl
  | trueWord token => rfl
  | falseWord token => rfl
  | identifier token => rfl
  | paren leftParen inner rightParen ih => exact ih (start + 1)
  | binding letWord name arrow bound inWord body endWord ihBound ihBody =>
      rw [spans, List.map_cons, List.map_append, ihBound, ihBody]
      rfl
  | operandConditional inner ih => exact ih start

end Tree

end Grammar

/-- The kind of the token of its own with which a node starts.  An operator between two operands
starts with its left operand. -/
def Expr.opening? : Expr -> Option Token.Kind
  | int _ _ => some .number
  | bool value _ => some (.keyword (if value then .trueWord else .falseWord))
  | var _ _ => some .identifier
  | letIn _ _ _ _ => some (.keyword .letWord)
  | ite _ _ _ _ => some (.keyword .ifWord)
  | unary op _ _ => some op.kind
  | binary _ _ _ _ => none

namespace Grammar

namespace Span

/-- A node carries the place of its first token other than a left parenthesis.  This is the token of
its own with which it starts, all there is of a leaf, or the place of its left operand. -/
structure Placed (span : Span) : Prop where
  proper : exists token, span.tokens.find? Token.isProper = some token ∧
    span.node.place = some token.position
  own : forall kind, span.node.opening? = some kind -> exists token rest, span.tokens = token :: rest ∧
    token.kind = kind ∧ span.node.place = some token.position
  leaf : span.node.size = 1 -> span.tokens.length = 1
  left : forall op left right place, span.node = .binary op left right place -> place = left.place

/-- A placed node whose tokens are some of the given ones, when `start` tokens are in front of these. -/
structure Inside (tokens : List Token) (start : Nat) (span : Span) : Prop where
  covers : exists front behind, tokens = front ++ span.tokens ++ behind ∧ span.start = start + front.length
  placed : span.Placed

variable {span : Span} {tokens : List Token} {start : Nat}

theorem Inside.lift {inner : List Token} {shifted : Nat} (inside : span.Inside inner shifted)
    (before after : List Token) (whole : tokens = before ++ inner ++ after)
    (isShifted : shifted = start + before.length) : span.Inside tokens start := by
  rcases inside with ⟨⟨front, behind, rfl, isStart⟩, placed⟩
  refine ⟨⟨before ++ front, behind ++ after, ?_, ?_⟩, placed⟩
  · rw [whole]
    simp only [List.append_assoc]
  · rw [isStart, isShifted, List.length_append, Nat.add_assoc]

end Span

namespace Tree

variable {top : Bool} {category : Category}

theorem exists_proper (tree : Tree top category) : exists token,
    tree.yield.find? Token.isProper = some token ∧ tree.expr.place = some token.position := by
  induction tree with
  | whole inner ih => exact ih
  | loosest inner ih => exact ih
  | conditional ifWord condition thenWord consequent elseWord alternate closing onlyTop =>
      exact ⟨ifWord.val, Token.find?_isProper ifWord (by decide) _, rfl⟩
  | tighter below inner ih => exact ih
  | binary op fits left sign right leftIh rightIh =>
      rcases leftIh with ⟨token, isFirst, isPlace⟩
      refine ⟨token, ?_, isPlace⟩
      rw [yield, List.find?_append, isFirst]
      rfl
  | unary op sign inner ih =>
      have other : op.kind ≠ .symbol .leftParen := by cases op <;> decide
      exact ⟨sign.val, Token.find?_isProper sign other _, rfl⟩
  | tightest inner ih => exact ih
  | number token value literal => exact ⟨token.val, Token.find?_isProper token (by decide) _, rfl⟩
  | trueWord token => exact ⟨token.val, Token.find?_isProper token (by decide) _, rfl⟩
  | falseWord token => exact ⟨token.val, Token.find?_isProper token (by decide) _, rfl⟩
  | identifier token => exact ⟨token.val, Token.find?_isProper token (by decide) _, rfl⟩
  | paren leftParen inner rightParen ih =>
      rcases ih with ⟨token, isFirst, isPlace⟩
      refine ⟨token, ?_, isPlace⟩
      have passed : ¬ leftParen.val.isProper = true := by
        rw [Token.isProper, leftParen.property]
        decide
      rw [yield, List.cons_append, List.find?_cons_of_neg passed, List.find?_append, isFirst]
      rfl
  | binding letWord name arrow bound inWord body endWord =>
      exact ⟨letWord.val, Token.find?_isProper letWord (by decide) _, rfl⟩
  | operandConditional inner ih => exact ih

/-- The root of a tree whose expression starts with a token of its own. -/
theorem inside_root (tree : Tree top category) (start : Nat) {kind : Token.Kind} (first : Token.Of kind)
    {rest : List Token} (cut : tree.yield = first.val :: rest) (opening : tree.expr.opening? = some kind)
    (isPlace : tree.expr.place = some first.val.position)
    (leaf : tree.expr.size = 1 -> rest = []) : (tree.span start).Inside tree.yield start where
  covers := ⟨[], [], (List.append_nil _).symm, rfl⟩
  placed := {
    proper := tree.exists_proper
    own := by
      intro other isOther
      cases opening.symm.trans isOther
      exact ⟨first.val, rest, cut, first.property, isPlace⟩
    leaf := by
      intro single
      change tree.yield.length = 1
      rw [cut, leaf single]
      rfl
    left := by
      intro op left right place isBinary
      change tree.expr = _ at isBinary
      rw [isBinary] at opening
      cases opening }

/-- The nodes of a tree are made of tokens of the tree and carry the places of their first ones. -/
theorem inside_of_mem_spans (tree : Tree top category) (start : Nat) {span : Span}
    (member : span ∈ tree.spans start) : span.Inside tree.yield start := by
  induction tree generalizing start with
  | whole inner ih => exact ih start member
  | loosest inner ih => exact ih start member
  | conditional ifWord condition thenWord consequent elseWord alternate closing onlyTop ihCondition
      ihConsequent ihAlternate =>
      rw [spans, List.mem_cons, List.mem_append, List.mem_append] at member
      rcases member with rfl | (inCondition | inConsequent) | inAlternate
      · refine inside_root _ start ifWord rfl rfl rfl (fun single => ?_)
        have more := condition.expr.size_pos
        rw [expr, Expr.size] at single
        omega
      · refine (ihCondition _ inCondition).lift [ifWord.val] (thenWord.val :: consequent.yield ++
          elseWord.val :: alternate.yield ++ closing.toList.map Subtype.val) ?_ rfl
        simp only [yield, List.append_assoc, List.cons_append, List.nil_append]
      · refine (ihConsequent _ inConsequent).lift (ifWord.val :: condition.yield ++ [thenWord.val])
          (elseWord.val :: alternate.yield ++ closing.toList.map Subtype.val) ?_ ?_
        · simp only [yield, List.append_assoc, List.cons_append, List.nil_append]
        · simp only [List.length_append, List.length_cons, List.length_nil]
      · refine (ihAlternate _ inAlternate).lift (ifWord.val :: condition.yield ++ thenWord.val ::
          consequent.yield ++ [elseWord.val]) (closing.toList.map Subtype.val) ?_ ?_
        · simp only [yield, List.append_assoc, List.cons_append, List.nil_append]
        · simp only [List.length_append, List.length_cons, List.length_nil]
          omega
  | tighter below inner ih => exact ih start member
  | binary op fits left sign right leftIh rightIh =>
      rw [spans, List.mem_cons, List.mem_append] at member
      rcases member with rfl | inLeft | inRight
      · have more := left.expr.size_pos
        refine ⟨⟨[], [], (List.append_nil _).symm, rfl⟩, exists_proper _, ?_, ?_, ?_⟩
        · intro kind isKind
          cases isKind
        · intro single
          change 1 + left.expr.size + right.expr.size = 1 at single
          omega
        · intro other leftPart rightPart place isBinary
          cases isBinary
          rfl
      · exact (leftIh _ inLeft).lift [] (sign.val :: right.yield) rfl rfl
      · refine (rightIh _ inRight).lift (left.yield ++ [sign.val]) [] ?_ ?_
        · simp only [yield, List.append_assoc, List.cons_append, List.nil_append, List.append_nil]
        · rw [List.length_append, List.length_singleton]
  | unary op sign inner ih =>
      rw [spans, List.mem_cons] at member
      rcases member with rfl | inInner
      · refine inside_root _ start sign rfl rfl rfl (fun single => ?_)
        have more := inner.expr.size_pos
        rw [expr, Expr.size] at single
        omega
      · exact (ih _ inInner).lift [sign.val] [] (List.append_nil _).symm rfl
  | tightest inner ih => exact ih start member
  | number token value literal =>
      rw [List.mem_singleton.mp member]
      exact inside_root _ start token rfl rfl rfl (fun _ => rfl)
  | trueWord token =>
      rw [List.mem_singleton.mp member]
      exact inside_root _ start token rfl rfl rfl (fun _ => rfl)
  | falseWord token =>
      rw [List.mem_singleton.mp member]
      exact inside_root _ start token rfl rfl rfl (fun _ => rfl)
  | identifier token =>
      rw [List.mem_singleton.mp member]
      exact inside_root _ start token rfl rfl rfl (fun _ => rfl)
  | paren leftParen inner rightParen ih =>
      exact (ih _ member).lift [leftParen.val] [rightParen.val] rfl rfl
  | binding letWord name arrow bound inWord body endWord ihBound ihBody =>
      rw [spans, List.mem_cons, List.mem_append] at member
      rcases member with rfl | inBound | inBody
      · refine inside_root _ start letWord rfl rfl rfl (fun single => ?_)
        have more := bound.expr.size_pos
        rw [expr, Expr.size] at single
        omega
      · refine (ihBound _ inBound).lift [letWord.val, name.val, arrow.val]
          (inWord.val :: body.yield ++ [endWord.val]) ?_ rfl
        simp only [yield, List.append_assoc, List.cons_append, List.nil_append]
      · refine (ihBody _ inBody).lift (letWord.val :: name.val :: arrow.val :: bound.yield ++ [inWord.val])
          [endWord.val] ?_ ?_
        · simp only [yield, List.append_assoc, List.cons_append, List.nil_append]
        · simp only [List.length_append, List.length_cons, List.length_nil]
  | operandConditional inner ih => exact ih start member

end Tree

end Grammar

/-! ## Nodes of a program -/

namespace Source

open Grammar

variable {source : Text} {e : Expr}

/-- The tree is a derivation of the expression from the tokens in front of the end token. -/
def Derives (source : Text) (tree : Tree true .expression) (e : Expr) : Prop :=
  tree.expr = e ∧ exists place, (Scan.run source).tokens = tree.yield ++ [Token.finish place]

/-- A node of a derivation is made of the tokens of the source at its start. -/
theorem Derives.span {tree : Tree true .expression} (derives : Derives source tree e) {span : Span}
    (member : span ∈ tree.spans 0) :
    span.tokens <+: (Scan.run source).tokens.drop span.start ∧ span.Placed := by
  rcases derives with ⟨_, place, tokens⟩
  rcases tree.inside_of_mem_spans 0 member with ⟨⟨front, behind, cut, isStart⟩, placed⟩
  refine ⟨⟨behind ++ [Token.finish place], ?_⟩, placed⟩
  rw [tokens, cut, isStart, Nat.zero_add, List.append_assoc, List.append_assoc, List.drop_left]

/-- Bindings at one place are one node. -/
theorem node_eq_of_place (parsed : parse source = .ok e) {name other : Text} {bound body otherBound
      otherBody : Expr} {place : Option Position} {node otherNode : Nat}
    (isFirst : e.At 0 (.letIn name bound body place) node)
    (isSecond : e.At 0 (.letIn other otherBound otherBody place) otherNode) : node = otherNode := by
  have first : (⟨name, node, place⟩ : Binding) ∈ e.lets 0 := List.mem_filterMap.mpr ⟨_, isFirst, rfl⟩
  have second : (⟨other, otherNode, place⟩ : Binding) ∈ e.lets 0 :=
    List.mem_filterMap.mpr ⟨_, isSecond, rfl⟩
  have distinct : ((e.lets 0).map Binding.place).Nodup := by
    rw [map_place_lets parsed]
    exact Scan.nodup_letPlaces source
  exact congrArg Binding.node (List.inj_on_of_nodup_map distinct first second rfl)

/-- Nodes point at themselves.  The nodes of a program are those of a derivation from the tokens of
its source.  In each derivation they are made of tokens without a gap, and each of them carries the
place of the first of its tokens that is no left parenthesis.  This is the word of a binding or a
conditional, the sign of an operator with one operand, the token of a leaf, or the place of the left
operand.  No two bindings are at the same place. -/
theorem parse_places (source : Text) (e : Expr) (parsed : parse source = .ok e) :
    (exists tree, Derives source tree e) ∧
    (forall tree, Derives source tree e ->
      (tree.spans 0).map Span.node = e.parts ∧
      forall span, span ∈ tree.spans 0 ->
        span.tokens <+: (Scan.run source).tokens.drop span.start ∧ span.Placed) ∧
    forall name other bound body otherBound otherBody place node otherNode,
      e.At 0 (.letIn name bound body place) node ->
      e.At 0 (.letIn other otherBound otherBody place) otherNode -> node = otherNode := by
  refine ⟨?_, ?_, ?_⟩
  · rcases exists_tree_of_parse parsed with ⟨tree, place, derived, tokens⟩
    exact ⟨tree, derived, place, tokens⟩
  · intro tree derives
    refine ⟨?_, fun span member => derives.span member⟩
    rw [tree.map_node_spans, derives.1]
  · intro name other bound body otherBound otherBody place node otherNode isFirst isSecond
    exact node_eq_of_place parsed isFirst isSecond

/-- Two bindings of one name, the first of them in parentheses. -/
def twofoldSource : Text :=
  "(let x <- (1) in x end) + let x <- 2 in ~x end"

def twofold : Expr :=
  .binary .add
    (.letIn "x" (.int 1 (some ⟨1, 11⟩)) (.var "x" (some ⟨1, 17⟩)) (some ⟨1, 1⟩))
    (.letIn "x" (.int 2 (some ⟨1, 35⟩)) (.unary .neg (.var "x" (some ⟨1, 41⟩)) (some ⟨1, 40⟩))
      (some ⟨1, 26⟩))
    (some ⟨1, 1⟩)

theorem parse_places_twofold : parse twofoldSource = .ok twofold ∧
    (exists tree, Derives twofoldSource tree twofold ∧ (tree.spans 0).map Span.node = twofold.parts ∧
      forall span, span ∈ tree.spans 0 ->
        span.tokens <+: (Scan.run twofoldSource).tokens.drop span.start ∧ span.Placed) ∧
    forall name bound body node, twofold.At 0 (.letIn name bound body (some ⟨1, 26⟩)) node -> node = 4 := by
  have parsed : parse twofoldSource = .ok twofold := by decide +kernel
  have second : twofold.At 0 (.letIn "x" (.int 2 (some ⟨1, 35⟩))
      (.unary .neg (.var "x" (some ⟨1, 41⟩)) (some ⟨1, 40⟩)) (some ⟨1, 26⟩)) 4 :=
    List.mem_of_getElem? (i := 4) rfl
  rcases parse_places twofoldSource twofold parsed with ⟨⟨tree, derives⟩, each, alone⟩
  refine ⟨parsed, ⟨tree, derives, each tree derives⟩, ?_⟩
  intro name bound body node isAt
  exact alone _ _ _ _ _ _ _ _ _ isAt second

end Source

end Monotype
