import Monotype.Source
import Monotype.Expr.Printer
import Monotype.Proofs.Lexeme
import Monotype.Proofs.Grammar.Completeness

namespace Monotype

/-!
# Reading what was printed

A printed expression is a row of lexemes, and its text is cut into just these lexemes.  The
tokens among them are the yield of a derivation tree whose root is a primary: conditionals and
operator applications are printed in parentheses, and a binding has an `end` of its own.  So no
conditional in the tree has an operator or an `end` directly behind it, and the tokens are read
as this tree.
-/

namespace Expr

/-- No literal is negative, and all names are identifiers. -/
def Writable : Expr -> Prop
  | int value _ => 0 ≤ value
  | bool _ _ => True
  | var name _ => name.IsIdentifier
  | letIn name bound body _ => name.IsIdentifier ∧ bound.Writable ∧ body.Writable
  | ite condition consequent alternate _ =>
      condition.Writable ∧ consequent.Writable ∧ alternate.Writable
  | unary _ operand _ => operand.Writable
  | binary _ left right _ => left.Writable ∧ right.Writable

/-! ## Printed lexemes -/

def lexemes : Expr -> List Lexeme
  | int value _ => [⟨.token .number, Text.ofInt value⟩]
  | bool true _ => [.ofKeyword .trueWord]
  | bool false _ => [.ofKeyword .falseWord]
  | var name _ => [⟨.token .identifier, name⟩]
  | letIn name bound body _ =>
      [.ofKeyword .letWord, .space, ⟨.token .identifier, name⟩, .space, .ofSymbol .assign, .space] ++
        bound.lexemes ++ [.space, .ofKeyword .inWord, .space] ++ body.lexemes ++
        [.space, .ofKeyword .endWord]
  | ite condition consequent alternate _ =>
      [.ofSymbol .leftParen, .ofKeyword .ifWord, .space] ++ condition.lexemes ++
        [.space, .ofKeyword .thenWord, .space] ++ consequent.lexemes ++
        [.space, .ofKeyword .elseWord, .space] ++ alternate.lexemes ++ [.ofSymbol .rightParen]
  | unary op operand _ =>
      [.ofSymbol .leftParen, ⟨.token op.kind, op.sign⟩, .space] ++ operand.lexemes ++
        [.ofSymbol .rightParen]
  | binary op left right _ =>
      [.ofSymbol .leftParen] ++ left.lexemes ++ [.space, ⟨.token op.kind, op.sign⟩, .space] ++
        right.lexemes ++ [.ofSymbol .rightParen]

theorem flatMap_text_lexemes (e : Expr) : e.lexemes.flatMap Lexeme.text = e.print := by
  induction e with
  | int value place => exact List.append_nil _
  | bool value place => cases value <;> rfl
  | var name place => exact List.append_nil _
  | letIn name bound body place ihBound ihBody =>
      simp only [lexemes, List.flatMap_append, ihBound, ihBody, print]
      have opening : [Lexeme.ofKeyword .letWord, .space, ⟨.token .identifier, name⟩, .space,
          .ofSymbol .assign, .space].flatMap Lexeme.text = "let " ++ name ++ " <- " := by
        simp only [List.flatMap_cons, List.flatMap_nil, List.append_nil, List.append_assoc]
        rfl
      rw [opening]
      rfl
  | ite condition consequent alternate place ihCondition ihConsequent ihAlternate =>
      simp only [lexemes, List.flatMap_append, ihCondition, ihConsequent, ihAlternate, print]
      rfl
  | unary op operand place ih =>
      simp only [lexemes, List.flatMap_append, ih, print]
      cases op with
      | neg => rfl
      | not => rfl
  | binary op left right place ihLeft ihRight =>
      simp only [lexemes, List.flatMap_append, ihLeft, ihRight, print]
      have sign : [Lexeme.space, ⟨.token op.kind, op.sign⟩, .space].flatMap Lexeme.text =
          " " ++ op.sign ++ " " := by
        simp only [List.flatMap_cons, List.flatMap_nil, List.append_nil, List.append_assoc]
        rfl
      rw [sign]
      simp only [List.append_assoc]
      rfl

/-- No printed expression starts with a star, which would turn a parenthesis in front of it into
the beginning of a comment. -/
theorem exists_cons_print {e : Expr} (writable : e.Writable) :
    exists u rest, e.print = u :: rest ∧ u ≠ '*' := by
  cases e with
  | int value place =>
      rcases Int.eq_ofNat_of_zero_le writable with ⟨n, rfl⟩
      rcases Text.exists_cons_ofNat n with ⟨u, rest, shape, digit, _⟩
      exact ⟨u, rest, shape, ne_of_apply_ne CodeUnit.isDigit (ne_of_eq_of_ne digit (by decide))⟩
  | bool value place => cases value <;> exact ⟨_, _, rfl, by decide⟩
  | var name place =>
      cases name with
      | nil => exact writable.elim
      | cons u rest =>
          exact ⟨u, rest, rfl, ne_of_apply_ne CodeUnit.isLetter (ne_of_eq_of_ne writable.1 (by decide))⟩
  | letIn name bound body place => exact ⟨_, _, rfl, by decide⟩
  | ite condition consequent alternate place => exact ⟨_, _, rfl, by decide⟩
  | unary op operand place => exact ⟨_, _, rfl, by decide⟩
  | binary op left right place => exact ⟨_, _, rfl, by decide⟩

/-- Where nothing continues its last word, a printed expression is cut into its lexemes. -/
theorem chained_lexemes {e : Expr} (writable : e.Writable) {after : Text} (edge : after.Edge) :
    Lexeme.Chained after e.lexemes := by
  induction e generalizing after with
  | int value place =>
      rcases Int.eq_ofNat_of_zero_le writable with ⟨n, rfl⟩
      exact ⟨Lexeme.leads_ofNat n edge, trivial⟩
  | bool value place => cases value <;> exact ⟨Lexeme.leads_ofKeyword _ edge, trivial⟩
  | var name place => exact ⟨Lexeme.leads_identifier writable edge, trivial⟩
  | letIn name bound body place ihBound ihBody =>
      rcases writable with ⟨identifier, boundWritable, bodyWritable⟩
      simp only [lexemes, Lexeme.chained_append_iff]
      refine ⟨⟨⟨⟨?_, ihBound boundWritable (Text.edge_space _)⟩, Lexeme.chained_spaced _ _⟩,
        ihBody bodyWritable (Text.edge_space _)⟩, ?_⟩
      · exact ⟨Lexeme.leads_ofKeyword _ (Text.edge_space _), Lexeme.leads_space _,
          Lexeme.leads_identifier identifier (Text.edge_space _), Lexeme.leads_space _,
          Lexeme.leads_ofSymbol _ _, Lexeme.leads_space _, trivial⟩
      · exact ⟨Lexeme.leads_space _, Lexeme.leads_ofKeyword _ edge, trivial⟩
  | ite condition consequent alternate place ihCondition ihConsequent ihAlternate =>
      rcases writable with ⟨conditionWritable, consequentWritable, alternateWritable⟩
      simp only [lexemes, Lexeme.chained_append_iff]
      refine ⟨⟨⟨⟨⟨⟨?_, ihCondition conditionWritable (Text.edge_space _)⟩, Lexeme.chained_spaced _ _⟩,
        ihConsequent consequentWritable (Text.edge_space _)⟩, Lexeme.chained_spaced _ _⟩,
        ihAlternate alternateWritable (Text.edge_rightParen _)⟩, Lexeme.leads_rightParen _, trivial⟩
      exact ⟨Lexeme.leads_leftParen (by decide) _, Lexeme.leads_ofKeyword _ (Text.edge_space _),
        Lexeme.leads_space _, trivial⟩
  | unary op operand place ih =>
      simp only [lexemes, Lexeme.chained_append_iff]
      refine ⟨⟨?_, ih writable (Text.edge_rightParen _)⟩, Lexeme.leads_rightParen _, trivial⟩
      cases op with
      | neg =>
          exact ⟨Lexeme.leads_leftParen (by decide) _, Lexeme.leads_ofSymbol .tilde _,
            Lexeme.leads_space _, trivial⟩
      | not =>
          exact ⟨Lexeme.leads_leftParen (by decide) _, Lexeme.leads_ofKeyword .notWord (Text.edge_space _),
            Lexeme.leads_space _, trivial⟩
  | binary op left right place ihLeft ihRight =>
      rcases writable with ⟨leftWritable, rightWritable⟩
      have sign (rest : Text) : Lexeme.Leads ⟨.token op.kind, op.sign⟩ (' ' :: rest) := by
        cases op <;> exact ⟨_, _, rfl, rfl⟩
      simp only [lexemes, Lexeme.chained_append_iff]
      refine ⟨⟨⟨⟨⟨?_, trivial⟩, ihLeft leftWritable (Text.edge_space _)⟩,
        Lexeme.leads_space _, sign _, Lexeme.leads_space _, trivial⟩,
        ihRight rightWritable (Text.edge_rightParen _)⟩, Lexeme.leads_rightParen _, trivial⟩
      rcases exists_cons_print leftWritable with ⟨u, rest, shape, notStar⟩
      rw [flatMap_text_lexemes, shape]
      exact Lexeme.leads_leftParen notStar _

theorem split_print {e : Expr} (writable : e.Writable) : Lexeme.split e.print = e.lexemes := by
  have cut := Lexeme.split_of_chained (chained_lexemes writable Text.edge_nil)
  rw [List.append_nil, flatMap_text_lexemes] at cut
  exact cut.trans (List.append_nil _)

theorem role_ne_fault_of_mem_lexemes (e : Expr) :
    forall lexeme, lexeme ∈ e.lexemes -> forall fault, lexeme.role ≠ .fault fault := by
  induction e with
  | bool value place => cases value <;> simp [lexemes, Lexeme.ofKeyword]
  | _ => simp_all [lexemes, Lexeme.ofKeyword, Lexeme.ofSymbol, Lexeme.space, or_imp]

end Expr

/-! ## Printed tokens -/

theorem Token.exists_of_map_spelling_cons {tokens : List Token} {kind : Token.Kind} {text : Text}
    {rest : List (Token.Kind × Text)} (spelled : tokens.map Token.spelling = (kind, text) :: rest) :
    exists (token : Token.Of kind) (more : List Token),
      tokens = token.val :: more ∧ token.val.text = text ∧ more.map Token.spelling = rest := by
  rcases List.map_eq_cons_iff.mp spelled with ⟨token, more, rfl, spelling, later⟩
  rcases Prod.mk.inj spelling with ⟨sameKind, sameText⟩
  exact ⟨⟨token, sameKind⟩, more, rfl, sameText, later⟩

namespace Grammar

open Grammar.Tree

/-- The tokens derive from a primary an expression that is `e` up to places, and whatever stands
behind them, none of its conditionals can take more. -/
def Spells (top : Bool) (tokens : List Token) (e : Expr) : Prop :=
  exists tree : Tree top .primary, tree.yield = tokens ∧ tree.expr.bare = e.bare ∧
    forall next, tree.Each Clear next

namespace Spells

variable {top : Bool} {place : Option Position}

theorem binding {boundTokens bodyTokens : List Token} {bound body : Expr}
    (boundSpells : Spells false boundTokens bound) (bodySpells : Spells false bodyTokens body)
    (letWord : Token.Of (.keyword .letWord)) (name : Token.Of .identifier)
    (arrow : Token.Of (.symbol .assign)) (inWord : Token.Of (.keyword .inWord))
    (endWord : Token.Of (.keyword .endWord)) :
    Spells top (letWord.val :: name.val :: arrow.val ::
        (boundTokens ++ inWord.val :: (bodyTokens ++ [endWord.val])))
      (.letIn name.val.text bound body place) := by
  rcases boundSpells with ⟨first, rfl, firstBare, firstClear⟩
  rcases bodySpells with ⟨second, rfl, secondBare, secondClear⟩
  refine ⟨.binding letWord name arrow (.ofPrimary first) inWord (.ofPrimary second) endWord, ?_, ?_, ?_⟩
  · simp only [Tree.yield, yield_ofPrimary, List.cons_append, List.append_assoc]
  · simp only [Tree.expr, expr_ofPrimary, Expr.bare, firstBare, secondBare]
  · exact fun _ => ⟨(each_ofPrimary _ _ _).mpr (firstClear _), (each_ofPrimary _ _ _).mpr (secondClear _)⟩

theorem conditional {conditionTokens consequentTokens alternateTokens : List Token}
    {condition consequent alternate : Expr} (conditionSpells : Spells top conditionTokens condition)
    (consequentSpells : Spells top consequentTokens consequent)
    (alternateSpells : Spells top alternateTokens alternate)
    (leftParen : Token.Of (.symbol .leftParen)) (ifWord : Token.Of (.keyword .ifWord))
    (thenWord : Token.Of (.keyword .thenWord)) (elseWord : Token.Of (.keyword .elseWord))
    (rightParen : Token.Of (.symbol .rightParen)) :
    Spells top (leftParen.val :: ifWord.val :: (conditionTokens ++ thenWord.val ::
        (consequentTokens ++ elseWord.val :: (alternateTokens ++ [rightParen.val]))))
      (.ite condition consequent alternate place) := by
  rcases conditionSpells with ⟨first, rfl, firstBare, firstClear⟩
  rcases consequentSpells with ⟨second, rfl, secondBare, secondClear⟩
  rcases alternateSpells with ⟨third, rfl, thirdBare, thirdClear⟩
  refine ⟨.paren leftParen (.whole (.conditional ifWord (.ofPrimary first) thenWord
    (.ofPrimary second) elseWord (.ofPrimary third) none
    (fun closes => absurd closes Bool.false_ne_true))) rightParen, ?_, ?_, ?_⟩
  · simp only [Tree.yield, yield_ofPrimary, Option.toList_none, List.map_nil, List.append_nil,
      List.cons_append, List.append_assoc]
  · simp only [Tree.expr, expr_ofPrimary, Expr.bare, firstBare, secondBare, thirdBare]
  · -- The parenthesis directly behind the conditional is neither an `end` nor an operator.
    refine fun _ => ⟨⟨(fun _ _ => by decide), by decide⟩, ?_, ?_, ?_⟩
    · exact (each_ofPrimary _ _ _).mpr (firstClear _)
    · exact (each_ofPrimary _ _ _).mpr (secondClear _)
    · exact (each_ofPrimary _ _ _).mpr (thirdClear _)

theorem unary {op : UnaryOp} {tokens : List Token} {operand : Expr} (spells : Spells top tokens operand)
    (leftParen : Token.Of (.symbol .leftParen)) (sign : Token.Of op.kind)
    (rightParen : Token.Of (.symbol .rightParen)) :
    Spells top (leftParen.val :: sign.val :: (tokens ++ [rightParen.val])) (.unary op operand place) := by
  rcases spells with ⟨inner, rfl, innerBare, innerClear⟩
  rcases (Tree.unary op sign (.tightest inner)).exists_looser (Nat.zero_le 6) with
    ⟨whole, yields, derives, clear⟩
  refine ⟨.paren leftParen (.loosest whole) rightParen, ?_, ?_, ?_⟩
  · simp only [Tree.yield, yields, List.cons_append]
  · simp only [Tree.expr, derives, Expr.bare, innerBare]
  · exact fun _ => clear _ _ (innerClear _)

theorem binary {op : BinaryOp} {leftTokens rightTokens : List Token} {left right : Expr}
    (leftSpells : Spells top leftTokens left) (rightSpells : Spells top rightTokens right)
    (leftParen : Token.Of (.symbol .leftParen)) (sign : Token.Of op.kind)
    (rightParen : Token.Of (.symbol .rightParen)) :
    Spells top (leftParen.val :: (leftTokens ++ sign.val :: (rightTokens ++ [rightParen.val])))
      (.binary op left right place) := by
  rcases leftSpells with ⟨first, rfl, firstBare, firstClear⟩
  rcases rightSpells with ⟨second, rfl, secondBare, secondClear⟩
  have below : op.level < 6 := op.level_lt_levels
  rcases (Tree.tightest first).exists_looser (Nat.le_of_lt below) with
    ⟨leftTree, leftYields, leftDerives, leftClear⟩
  rcases (Tree.tightest second).exists_looser (show op.level + 1 ≤ 6 from below) with
    ⟨rightTree, rightYields, rightDerives, rightClear⟩
  have fits : op ∈ operators op.level := (mem_operators_iff op _).mpr rfl
  rcases (Tree.binary op fits leftTree sign rightTree).exists_looser (Nat.zero_le op.level) with
    ⟨whole, yields, derives, clear⟩
  refine ⟨.paren leftParen (.loosest whole) rightParen, ?_, ?_, ?_⟩
  · simp only [Tree.yield, yields, leftYields, rightYields, List.cons_append, List.append_assoc]
  · simp only [Tree.expr, derives, leftDerives, rightDerives, Expr.bare, firstBare, secondBare]
  · exact fun _ => clear _ _ ⟨leftClear _ _ (firstClear _), rightClear _ _ (secondClear _)⟩

end Spells

/-- The tokens of a printed expression derive that expression. -/
theorem spells_of_lexemes {e : Expr} (writable : e.Writable) (top : Bool) {tokens : List Token}
    (spelled : tokens.map Token.spelling = e.lexemes.filterMap Lexeme.spelling?) :
    Spells top tokens e := by
  induction e generalizing top tokens with
  | int value place =>
      rcases Int.eq_ofNat_of_zero_le writable with ⟨n, rfl⟩
      rcases Token.exists_of_map_spelling_cons spelled with ⟨token, _, rfl, text, spelled⟩
      rw [List.map_eq_nil_iff.mp spelled]
      have literal : Numeral.value? token.val.text = some n := text ▸ Numeral.value?_ofNat n
      exact ⟨.number token n literal, rfl, rfl, fun _ => trivial⟩
  | bool value place =>
      cases value with
      | true =>
          rcases Token.exists_of_map_spelling_cons spelled with ⟨token, _, rfl, _, spelled⟩
          rw [List.map_eq_nil_iff.mp spelled]
          exact ⟨.trueWord token, rfl, rfl, fun _ => trivial⟩
      | false =>
          rcases Token.exists_of_map_spelling_cons spelled with ⟨token, _, rfl, _, spelled⟩
          rw [List.map_eq_nil_iff.mp spelled]
          exact ⟨.falseWord token, rfl, rfl, fun _ => trivial⟩
  | var name place =>
      rcases Token.exists_of_map_spelling_cons spelled with ⟨token, _, rfl, text, spelled⟩
      change token.val.text = name at text
      rw [List.map_eq_nil_iff.mp spelled, ← text]
      exact ⟨.identifier token, rfl, rfl, fun _ => trivial⟩
  | letIn name bound body place ihBound ihBody =>
      simp only [Expr.lexemes, Lexeme.ofKeyword, Lexeme.ofSymbol, Lexeme.spelling?_token,
        Lexeme.spelling?_space, List.filterMap_append, List.filterMap_cons, List.filterMap_nil,
        List.append_assoc, List.cons_append, List.nil_append] at spelled
      rcases Token.exists_of_map_spelling_cons spelled with ⟨letWord, _, rfl, _, spelled⟩
      rcases Token.exists_of_map_spelling_cons spelled with ⟨nameToken, _, rfl, text, spelled⟩
      rcases Token.exists_of_map_spelling_cons spelled with ⟨arrow, _, rfl, _, spelled⟩
      rcases List.map_eq_append_iff.mp spelled with ⟨boundTokens, _, rfl, boundSpelled, spelled⟩
      rcases Token.exists_of_map_spelling_cons spelled with ⟨inWord, _, rfl, _, spelled⟩
      rcases List.map_eq_append_iff.mp spelled with ⟨bodyTokens, _, rfl, bodySpelled, spelled⟩
      rcases Token.exists_of_map_spelling_cons spelled with ⟨endWord, _, rfl, _, spelled⟩
      rw [List.map_eq_nil_iff.mp spelled, ← text]
      exact (ihBound writable.2.1 false boundSpelled).binding (ihBody writable.2.2 false bodySpelled)
        letWord nameToken arrow inWord endWord
  | ite condition consequent alternate place ihCondition ihConsequent ihAlternate =>
      simp only [Expr.lexemes, Lexeme.ofKeyword, Lexeme.ofSymbol, Lexeme.spelling?_token,
        Lexeme.spelling?_space, List.filterMap_append, List.filterMap_cons, List.filterMap_nil,
        List.append_assoc, List.cons_append, List.nil_append] at spelled
      rcases Token.exists_of_map_spelling_cons spelled with ⟨leftParen, _, rfl, _, spelled⟩
      rcases Token.exists_of_map_spelling_cons spelled with ⟨ifWord, _, rfl, _, spelled⟩
      rcases List.map_eq_append_iff.mp spelled with ⟨conditionTokens, _, rfl, conditionSpelled, spelled⟩
      rcases Token.exists_of_map_spelling_cons spelled with ⟨thenWord, _, rfl, _, spelled⟩
      rcases List.map_eq_append_iff.mp spelled with ⟨consequentTokens, _, rfl, consequentSpelled, spelled⟩
      rcases Token.exists_of_map_spelling_cons spelled with ⟨elseWord, _, rfl, _, spelled⟩
      rcases List.map_eq_append_iff.mp spelled with ⟨alternateTokens, _, rfl, alternateSpelled, spelled⟩
      rcases Token.exists_of_map_spelling_cons spelled with ⟨rightParen, _, rfl, _, spelled⟩
      rw [List.map_eq_nil_iff.mp spelled]
      exact (ihCondition writable.1 top conditionSpelled).conditional
        (ihConsequent writable.2.1 top consequentSpelled) (ihAlternate writable.2.2 top alternateSpelled)
        leftParen ifWord thenWord elseWord rightParen
  | unary op operand place ih =>
      simp only [Expr.lexemes, Lexeme.ofSymbol, Lexeme.spelling?_token, Lexeme.spelling?_space,
        List.filterMap_append, List.filterMap_cons, List.filterMap_nil, List.cons_append,
        List.nil_append] at spelled
      rcases Token.exists_of_map_spelling_cons spelled with ⟨leftParen, _, rfl, _, spelled⟩
      rcases Token.exists_of_map_spelling_cons spelled with ⟨sign, _, rfl, _, spelled⟩
      rcases List.map_eq_append_iff.mp spelled with ⟨operandTokens, _, rfl, operandSpelled, spelled⟩
      rcases Token.exists_of_map_spelling_cons spelled with ⟨rightParen, _, rfl, _, spelled⟩
      rw [List.map_eq_nil_iff.mp spelled]
      exact (ih writable top operandSpelled).unary leftParen sign rightParen
  | binary op left right place ihLeft ihRight =>
      simp only [Expr.lexemes, Lexeme.ofSymbol, Lexeme.spelling?_token, Lexeme.spelling?_space,
        List.filterMap_append, List.filterMap_cons, List.filterMap_nil, List.append_assoc,
        List.cons_append, List.nil_append] at spelled
      rcases Token.exists_of_map_spelling_cons spelled with ⟨leftParen, _, rfl, _, spelled⟩
      rcases List.map_eq_append_iff.mp spelled with ⟨leftTokens, _, rfl, leftSpelled, spelled⟩
      rcases Token.exists_of_map_spelling_cons spelled with ⟨sign, _, rfl, _, spelled⟩
      rcases List.map_eq_append_iff.mp spelled with ⟨rightTokens, _, rfl, rightSpelled, spelled⟩
      rcases Token.exists_of_map_spelling_cons spelled with ⟨rightParen, _, rfl, _, spelled⟩
      rw [List.map_eq_nil_iff.mp spelled]
      exact (ihLeft writable.1 top leftSpelled).binary (ihRight writable.2 top rightSpelled)
        leftParen sign rightParen

/-- The names in the expression of a tree are the names among its tokens. -/
theorem Tree.writable_expr {top : Bool} {category : Category} (tree : Tree top category)
    (names : forall token, token ∈ tree.yield -> token.kind = .identifier -> token.text.IsIdentifier) :
    tree.expr.Writable := by
  induction tree with
  | whole inner ih => exact ih names
  | loosest inner ih => exact ih names
  | conditional ifWord condition thenWord consequent elseWord alternate closing onlyTop ihCondition
      ihConsequent ihAlternate =>
      simp only [Tree.yield, List.forall_mem_append, List.forall_mem_cons] at names
      rcases names with ⟨⟨⟨⟨_, inCondition⟩, _, inConsequent⟩, _, inAlternate⟩, _⟩
      exact ⟨ihCondition inCondition, ihConsequent inConsequent, ihAlternate inAlternate⟩
  | tighter below inner ih => exact ih names
  | binary op fits left sign right ihLeft ihRight =>
      simp only [Tree.yield, List.forall_mem_append, List.forall_mem_cons] at names
      rcases names with ⟨inLeft, _, inRight⟩
      exact ⟨ihLeft inLeft, ihRight inRight⟩
  | unary op sign inner ih => exact ih (List.forall_mem_cons.mp names).2
  | tightest inner ih => exact ih names
  | number token value literal => exact Int.natCast_nonneg value
  | trueWord token => trivial
  | falseWord token => trivial
  | identifier token => exact names token.val List.mem_cons_self token.property
  | paren leftParen inner rightParen ih =>
      simp only [Tree.yield, List.forall_mem_append, List.forall_mem_cons] at names
      exact ih names.1.2
  | binding letWord name arrow bound inWord body endWord ihBound ihBody =>
      simp only [Tree.yield, List.forall_mem_append, List.forall_mem_cons] at names
      rcases names with ⟨⟨⟨_, isName, _, inBound⟩, _, inBody⟩, _⟩
      exact ⟨isName name.property, ihBound inBound, ihBody inBody⟩
  | operandConditional inner ih => exact ih names

end Grammar

/-! ## Programs -/

theorem Expr.diagnostics_print {e : Expr} (writable : e.Writable) : (Scan.run e.print).diagnostics = [] := by
  have cut := Expr.split_print writable
  exact Lexeme.diagnostics_placed (cut ▸ role_ne_fault_of_mem_lexemes e) .start

namespace Source

theorem parse_eq_ok_iff (text : Text) (e : Expr) :
    parse text = .ok e ↔ (Scan.run text).diagnostics = [] ∧
      (Parser.ofTokens (Scan.run text).tokens).program.1 = .ok e := by
  rw [parse]
  split
  · next clean =>
      rw [and_iff_right clean]
      split <;> simp_all
  · next faulty => simp [faulty]

theorem exists_parse_print {e : Expr} (writable : e.Writable) :
    exists again, parse e.print = .ok again ∧ again.bare = e.bare := by
  rcases Scan.exists_tokens e.print with ⟨body, tokens, spelled⟩
  rw [Expr.split_print writable] at spelled
  rcases Grammar.spells_of_lexemes writable true spelled with ⟨tree, rfl, bare, clear⟩
  refine ⟨tree.expr, (parse_eq_ok_iff _ _).mpr ⟨Expr.diagnostics_print writable, ?_⟩, bare⟩
  have read := Grammar.program_yield ((Grammar.Tree.each_ofPrimary _ tree _).mpr (clear _))
    ⟨Token.finish (.after .start e.print), rfl⟩
  rw [Grammar.Tree.yield_ofPrimary, Grammar.Tree.expr_ofPrimary] at read
  rw [tokens]
  exact read

theorem writable_of_parse {text : Text} {e : Expr} (parsed : parse text = .ok e) : e.Writable := by
  have accepted := ((parse_eq_ok_iff text e).mp parsed).2
  rcases Scan.exists_tokens text with ⟨body, tokens, _⟩
  rw [tokens] at accepted
  rcases (Parser.program_eq_ok_iff rfl e).mp accepted with ⟨left, accepted⟩
  rcases Grammar.read_sound (.expression .nil rfl) accepted with
    ⟨tree, front, behind, finish, cut, _, yields, rfl, _⟩
  refine tree.writable_expr ?_
  intro token member
  have listed : token ∈ (Scan.run text).tokens := by
    rw [yields, List.nil_append] at member
    rw [tokens, cut]
    exact List.mem_append_left _ member
  exact Scan.isIdentifier_of_mem_tokens listed

/-- What is printed is read back as the same tree, if its literals and names can be written at all.
All that is read from a text can be written, and so is printed and read back with no change. -/
theorem parse_print :
    (forall e : Expr, e.Writable -> exists again, parse e.print = .ok again ∧ again.bare = e.bare) ∧
      forall (text : Text) (e : Expr), parse text = .ok e -> e.Writable ∧
        exists again, parse e.print = .ok again ∧ again.bare = e.bare ∧ again.print = e.print := by
  refine ⟨fun e writable => exists_parse_print writable, ?_⟩
  intro text e parsed
  have writable := writable_of_parse parsed
  rcases exists_parse_print writable with ⟨again, reparsed, same⟩
  refine ⟨writable, again, reparsed, same, ?_⟩
  rw [← again.print_bare, same, e.print_bare]

/-- A conditional and a binding, both without parentheses, in operand positions. -/
def unparenthesised : Text :=
  "~ 0x1F * let end_1 <- 7 in if end_1 <= 2 then 0 else end_1 end"

def parenthesised : Expr :=
  .binary .mul (.unary .neg (.int 31 (some ⟨1, 2⟩)) (some ⟨1, 0⟩))
    (.letIn "end_1" (.int 7 (some ⟨1, 22⟩))
      (.ite (.binary .le (.var "end_1" (some ⟨1, 30⟩)) (.int 2 (some ⟨1, 39⟩)) (some ⟨1, 30⟩))
        (.int 0 (some ⟨1, 46⟩)) (.var "end_1" (some ⟨1, 53⟩)) (some ⟨1, 27⟩)) (some ⟨1, 9⟩))
    (some ⟨1, 0⟩)

theorem parse_print_parenthesised :
    parse unparenthesised = .ok parenthesised ∧ parenthesised.Writable ∧
      exists again, parse parenthesised.print = .ok again ∧ again.bare = parenthesised.bare := by
  have parsed : parse unparenthesised = .ok parenthesised := by rfl
  have writable := (parse_print.2 unparenthesised parenthesised parsed).1
  exact ⟨parsed, writable, parse_print.1 parenthesised writable⟩

end Source

end Monotype
