import Monotype.Proofs.Binders
import Monotype.Proofs.Lines
import Monotype.Proofs.RoundTrip

namespace Monotype

/-!
# Where bindings stand in a source

The nodes of a program that are bindings and the words `let` of its source are in the same order, and
each binding has the place of its word.  The place of a word counts what is before it in the source.
So it names the line, among the lines between line feeds, and the column in which the word starts.
-/

/-! ## Bindings and their words -/

namespace Token

/-- The places of the words `let` among tokens. -/
def letPlaces (tokens : List Token) : List (Option Position) :=
  (tokens.filter (fun token => token.kind = .keyword .letWord)).map (fun token => some token.position)

theorem letPlaces_append (first second : List Token) :
    letPlaces (first ++ second) = letPlaces first ++ letPlaces second := by
  rw [letPlaces, List.filter_append, List.map_append, letPlaces, letPlaces]

theorem letPlaces_let (token : Token.Of (.keyword .letWord)) (rest : List Token) :
    letPlaces (token.val :: rest) = some token.val.position :: letPlaces rest := by
  rw [letPlaces, List.filter_cons, if_pos (decide_eq_true token.property), List.map_cons, letPlaces]

theorem letPlaces_other {kind : Token.Kind} (token : Token.Of kind) (other : kind ≠ .keyword .letWord)
    (rest : List Token) : letPlaces (token.val :: rest) = letPlaces rest := by
  have unlike : ¬ decide (token.val.kind = .keyword .letWord) = true := by
    rw [token.property]
    exact fun same => other (of_decide_eq_true same)
  rw [letPlaces, List.filter_cons, if_neg unlike, letPlaces]

end Token

namespace Grammar

open Token

/-- The bindings in the expression of a tree are those of its words `let`, in order. -/
theorem Tree.map_place_lets {top : Bool} {category : Category} (tree : Tree top category) (node : Nat) :
    (tree.expr.lets node).map Binding.place = letPlaces tree.yield := by
  induction tree generalizing node with
  | whole inner ih => exact ih node
  | loosest inner ih => exact ih node
  | conditional ifWord condition thenWord consequent elseWord alternate closing onlyTop ihCondition
      ihConsequent ihAlternate =>
      have closes : letPlaces (closing.toList.map Subtype.val) = [] := by
        cases closing with
        | none => rfl
        | some endWord => exact letPlaces_other endWord (by decide) []
      rw [Tree.expr, Tree.yield, Expr.lets_ite, List.map_append, List.map_append, ihCondition, ihConsequent,
        ihAlternate, letPlaces_append, letPlaces_append, letPlaces_append, letPlaces_other ifWord (by decide),
        letPlaces_other thenWord (by decide), letPlaces_other elseWord (by decide), closes, List.append_nil]
  | tighter below inner ih => exact ih node
  | binary op fits left sign right ihLeft ihRight =>
      have other : op.kind ≠ .keyword .letWord := by cases op <;> decide
      rw [Tree.expr, Tree.yield, Expr.lets_binary, List.map_append, ihLeft, ihRight, letPlaces_append,
        letPlaces_other sign other]
  | unary op sign inner ih =>
      have other : op.kind ≠ .keyword .letWord := by cases op <;> decide
      rw [Tree.expr, Tree.yield, Expr.lets_unary, ih, letPlaces_other sign other]
  | tightest inner ih => exact ih node
  | number token value literal => exact (letPlaces_other token (by decide) []).symm
  | trueWord token => exact (letPlaces_other token (by decide) []).symm
  | falseWord token => exact (letPlaces_other token (by decide) []).symm
  | identifier token => exact (letPlaces_other token (by decide) []).symm
  | paren leftParen inner rightParen ih =>
      rw [Tree.expr, Tree.yield, ih, letPlaces_append, letPlaces_other leftParen (by decide),
        letPlaces_other rightParen (by decide)]
      exact (List.append_nil _).symm
  | binding letWord name arrow bound inWord body endWord ihBound ihBody =>
      rw [Tree.expr, Tree.yield, Expr.lets_letIn, List.map_cons, List.map_append, ihBound, ihBody,
        letPlaces_append, letPlaces_append, letPlaces_let, letPlaces_other name (by decide),
        letPlaces_other arrow (by decide), letPlaces_other inWord (by decide),
        letPlaces_other endWord (by decide), List.cons_append]
      exact congrArg _ (List.append_nil _).symm
  | operandConditional inner ih => exact ih node

end Grammar

/-! ## Words and their lines -/

namespace Lexeme

theorem Segment.text_of_keyword {lexeme : Lexeme} {after : Text} (segment : lexeme.Segment after)
    {word : Keyword} (isWord : lexeme.role = .token (.keyword word)) : lexeme.text = word.spelling := by
  cases segment <;> cases isWord
  rfl

end Lexeme

namespace Scan

/-- A reserved word among the tokens of a text stands in the text where its place says. -/
theorem exists_of_keyword_mem {text : Text} {token : Token} (member : token ∈ (run text).tokens)
    {word : Keyword} (isWord : token.kind = .keyword word) : exists front after,
      text = front ++ (word.spelling ++ after) ∧ token.position = .behind front := by
  rw [tokens_run, List.mem_append, List.mem_singleton] at member
  rcases member with inBody | rfl
  · rcases Lexeme.exists_of_mem_tokensAt inBody with ⟨front, after, cut, isPlace, segment⟩
    have isText : token.text = word.spelling := segment.text_of_keyword (congrArg _ isWord)
    exact ⟨front, after, isText ▸ cut, isPlace⟩
  · cases isWord

end Scan

namespace Source

/-- The line and the column of a place are those where the word starts in the lines of the text. -/
def StartsAt (text word : Text) (place : Position) : Prop :=
  exists index line, place.line = index + 1 ∧ (Text.lines text)[index]? = some line ∧
    word <+: line.drop place.column

theorem startsAt_of_keyword {text : Text} {token : Token} (member : token ∈ (Scan.run text).tokens)
    {word : Keyword} (isWord : token.kind = .keyword word) : StartsAt text word.spelling token.position := by
  rcases Scan.exists_of_keyword_mem member isWord with ⟨front, after, rfl, isPlace⟩
  rcases Text.exists_line_behind front (word.spelling ++ after) with ⟨index, line, isIndex, isLine, rest⟩
  refine ⟨index, line, isPlace ▸ isIndex, isLine, ?_⟩
  have oneLine : forall u, u ∈ word.spelling -> decide (u ≠ CodeUnit.ofChar '\n') = true := by
    cases word <;> exact List.all_eq_true.mp (by decide)
  rw [isPlace, rest, List.takeWhile_append_of_pos oneLine]
  exact List.prefix_append _ _

/-- The tokens of a program are those of a tree of it and an end token. -/
theorem exists_tree_of_parse {source : Text} {e : Expr} (parsed : parse source = .ok e) :
    exists (tree : Grammar.Tree true .expression) (place : Position), tree.expr = e ∧
      (Scan.run source).tokens = tree.yield ++ [Token.finish place] := by
  have accepted := ((parse_eq_ok_iff source e).mp parsed).2
  rw [Scan.tokens_run] at accepted ⊢
  rcases (Parser.program_eq_ok_iff rfl e).mp accepted with ⟨left, accepted⟩
  rcases Grammar.read_sound (.expression .nil rfl) accepted with
    ⟨tree, front, behind, finish, cut, isEnd, yields, derives, _⟩
  refine ⟨tree, Position.start.after source, derives, ?_⟩
  rw [yields, List.nil_append]
  -- An end token in front of others would be one of the lexemes.
  rcases List.eq_nil_or_concat behind with rfl | ⟨more, last, rfl⟩
  · rw [(List.append_inj' cut rfl).1]
  · rw [List.concat_eq_append, ← List.cons_append, ← List.append_assoc] at cut
    have member : finish ∈ Lexeme.tokensAt .start (Lexeme.split source) := by
      rw [(List.append_inj' cut rfl).1]
      exact List.mem_append_right front List.mem_cons_self
    exact absurd isEnd (Lexeme.kind_ne_of_mem_tokensAt member)

/-- The bindings of a program are the words `let` of its source, in order. -/
theorem map_place_lets {source : Text} {e : Expr} (parsed : parse source = .ok e) :
    (e.lets 0).map Binding.place = Token.letPlaces (Scan.run source).tokens := by
  rcases exists_tree_of_parse parsed with ⟨tree, place, rfl, tokens⟩
  rw [tree.map_place_lets, tokens, Token.letPlaces_append]
  exact (List.append_nil _).symm

end Source

end Monotype
