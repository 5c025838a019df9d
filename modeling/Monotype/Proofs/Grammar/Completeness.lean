import Monotype.Proofs.Grammar.Soundness

namespace Monotype

/-!
# What has a clear derivation is read

A derivation is clear if no conditional in it has an operator directly behind it, or an
`end` that it could take and does not.  Reading the yield of a clear tree from the place
where the tree stands leads to its expression: the readings before the tree and behind it
have the same frames.  What may stand around the tree and behind it depends on its category:
an operand of some level may be followed by an operator of that level or of a looser one, as
it may itself be a left operand.

So a list of tokens with a clear derivation is accepted, and all its clear derivations are
derivations of one expression.
-/

/-- What is awaited where a whole expression, or else an operand, begins. -/
def Awaited.start (whole : Bool) : Awaited :=
  if whole then .expression else .operand

namespace Reading

variable {outer : Nat} {token : Token} {frames : List Frame} {finished : Expr}

theorem step_start (outer : Nat) (frames : List Frame) (whole : Bool) (token : Token) :
    step outer ⟨frames, .start whole⟩ token = begin token frames whole := by
  cases whole with
  | false => rfl
  | true => rfl

theorem demand_of_kind {wanted : Token.Kind} (fits : token.kind = wanted) (next : Reading) :
    demand wanted token next = .shift next := by
  rw [demand, if_pos fits]

theorem settle_of_operator {op : BinaryOp} (isOp : token.kind = op.kind)
    (binds : Frame.floor frames ≤ op.level) :
    settle outer token frames finished false = .shift
      ⟨.rightOf op finished (finished.place.getD token.position) :: frames, .operand⟩ := by
  cases frames with
  | nil => rw [settle, extendOr_of_operator isOp binds]
  | cons frame rest => cases frame <;> rw [settle, extendOr_of_operator isOp binds]

/-- Whether operators may extend the finished expression does not matter to other tokens. -/
theorem settle_closed (plain : ¬ token.kind.IsOperator) (closed : Bool) :
    settle outer token frames finished closed = settle outer token frames finished false := by
  have unextended := unextended_of_plain plain frames
  cases frames with
  | nil =>
      rw [settle, settle, extendOr_of_unextended (unextended _), extendOr_of_unextended (unextended _)]
  | cons frame rest =>
      cases frame <;>
        rw [settle, settle, extendOr_of_unextended (unextended _),
          extendOr_of_unextended (unextended _)]

end Reading

namespace Parser

variable {outer : Nat} {token : Token} {reading next : Reading}

theorem read_of_shift (shifts : reading.step outer token = .shift next) (rest : List Token) :
    read outer reading (token :: rest) = read outer next rest := by
  rw [read, shifts]

/-- Readings on which a token has the same effect, and which have as many open bindings. -/
theorem read_congr {other : Reading} (same : reading.step outer token = other.step outer token)
    (bindings : Frame.openBindings outer reading.frames = Frame.openBindings outer other.frames)
    (rest : List Token) : read outer reading (token :: rest) = read outer other (token :: rest) := by
  rw [read, read, same, bindings]

theorem read_closed (plain : ¬ token.kind.IsOperator) (frames : List Frame) (e : Expr) (closed : Bool)
    (rest : List Token) : read outer ⟨frames, .continuation e closed⟩ (token :: rest) =
      read outer ⟨frames, .continuation e false⟩ (token :: rest) := by
  refine read_congr ?_ ?_ rest
  · exact Reading.settle_closed plain closed
  · rfl

/-- A frame that is filled and left when a token comes. -/
theorem read_leave {frame : Frame} {frames : List Frame} {e whole : Expr} {closed stays : Bool}
    (noBinding : frame.isBinding = false)
    (unextended : Reading.Unextended token.kind (frame :: frames) closed)
    (settles : Reading.settle outer token (frame :: frames) e closed =
      Reading.extendOr token (frame :: frames) e closed
        (fun _ => Reading.settle outer token frames whole stays)) (rest : List Token) :
    read outer ⟨frame :: frames, .continuation e closed⟩ (token :: rest) =
      read outer ⟨frames, .continuation whole stays⟩ (token :: rest) := by
  apply read_congr _ (Frame.openBindings_cons outer frames noBinding)
  change Reading.settle outer token (frame :: frames) e closed = _
  rw [settles, Reading.extendOr_of_unextended unextended]
  rfl

/-- A conditional is left without an `end` if a binding is open or the token is no `end`. -/
theorem read_alternate {frames : List Frame} (plain : ¬ token.kind.IsOperator)
    (kept : token.kind = .keyword .endWord -> Frame.openBindings outer frames ≠ 0) (whole : Bool)
    (condition consequent : Expr) (start : Position) (e : Expr) (closed : Bool) (rest : List Token) :
    read outer ⟨.alternate whole condition consequent start :: frames, .continuation e closed⟩
        (token :: rest) =
      read outer ⟨frames, .continuation (.ite condition consequent e (some start)) whole⟩
        (token :: rest) := by
  have stays : ¬ (Frame.openBindings outer frames = 0 ∧ token.kind = .keyword .endWord) :=
    fun taken => kept taken.2 taken.1
  apply read_leave rfl (Reading.unextended_of_plain plain _ _)
  simp only [Reading.settle, if_neg stays]

/-- A word that is wanted behind a complete expression. -/
theorem read_word {wanted : Token.Kind} (word : Token.Of wanted) (plain : ¬ wanted.IsOperator)
    {frames : List Frame} {e : Expr} (settles : Reading.settle outer word.val frames e false =
      Reading.extendOr word.val frames e false (fun _ => Reading.demand wanted word.val next))
    (rest : List Token) :
    read outer ⟨frames, .continuation e false⟩ (word.val :: rest) = read outer next rest := by
  apply read_of_shift
  change Reading.settle outer word.val frames e false = .shift next
  rw [← word.property] at plain
  rw [settles, Reading.extendOr_of_unextended (Reading.unextended_of_plain plain _ _),
    Reading.demand_of_kind word.property]

theorem read_finish (outer : Nat) {finish : Token} (isEnd : finish.kind = .endOfInput) (e : Expr)
    (closed : Bool) : read outer ⟨[], .continuation e closed⟩ [finish] = .accepted e [finish] := by
  have plain : ¬ finish.kind.IsOperator := by
    rw [isEnd]
    decide
  have accept : Reading.step outer ⟨[], .continuation e closed⟩ finish = .accept e := by
    change Reading.settle outer finish [] e closed = _
    rw [Reading.settle, Reading.extendOr_of_unextended (Reading.unextended_of_plain plain _ _),
      if_pos isEnd]
  rw [read, accept]

end Parser

namespace Grammar

open Grammar.Tree Monotype.Parser

/-- What may stand around a tree of a category and directly behind it. -/
def Category.Fits (frames : List Frame) (whole : Bool) (next : Token.Kind) : Category -> Prop
  | expression => whole = true ∧ Frame.floor frames = 0 ∧ ¬ next.IsOperator
  | conditional => True
  | operand level =>
      Frame.floor frames ≤ level ∧ forall op : BinaryOp, next = op.kind -> op.level ≤ level
  | primary => True

theorem Category.fits_expression {frames : List Frame} {next : Token.Kind}
    (hole : Frame.takesWhole frames = true) (plain : ¬ next.IsOperator) :
    Category.Fits frames true next .expression :=
  ⟨rfl, Frame.floor_of_takesWhole hole, plain⟩

/-- Reading the yield of the tree from a place where it fits leads to its expression, if the
tree is clear. -/
def Runs (outer : Nat) {top : Bool} {category : Category} (tree : Tree top category) : Prop :=
  forall {frames : List Frame} {whole : Bool} {kind : Token.Kind} (next : Token.Of kind)
    (rest : List Token), (Frame.openBindings outer frames = 0 ↔ top = true) ->
      category.Fits frames whole kind -> tree.Each Clear kind ->
        read outer ⟨frames, .start whole⟩ (tree.yield ++ next.val :: rest) =
          read outer ⟨frames, .continuation tree.expr false⟩ (next.val :: rest)

namespace Runs

variable {outer level : Nat} {top : Bool}

theorem leaf {tree : Tree top .primary} {token : Token} (single : tree.yield = [token])
    (begins : forall frames whole,
      Reading.begin token frames whole = .shift ⟨frames, .continuation tree.expr false⟩) :
    Runs outer tree := by
  intro frames whole kind next rest isTop fits clear
  rw [single]
  apply read_of_shift
  rw [Reading.step_start, begins]

/-- Left operand, operator and right operand.  The frame of the operator is left when the
token behind the right operand comes: that token is no tighter operator. -/
theorem binary {op : BinaryOp} (atLevel : op ∈ operators level) {left : Tree top (.operand level)}
    (sign : Token.Of op.kind) {right : Tree top (.operand (level + 1))} (leftRuns : Runs outer left)
    (rightRuns : Runs outer right) : Runs outer (.binary op atLevel left sign right) := by
  intro frames whole kind next rest isTop fits clear
  rcases (mem_operators_iff op level).mp atLevel with rfl
  rcases left.exists_place with ⟨start, starts⟩
  have leftFits : Category.Fits frames whole op.kind (.operand op.level) :=
    ⟨fits.1, fun other same => Nat.le_of_eq (congrArg BinaryOp.level (BinaryOp.kind_injective same).symm)⟩
  have rightFits : Category.Fits (.rightOf op left.expr start :: frames) false kind
      (.operand (op.level + 1)) :=
    ⟨Nat.le_refl _, fun other isOther => Nat.le_succ_of_le (fits.2 other isOther)⟩
  have unextended : Reading.Unextended next.val.kind (.rightOf op left.expr start :: frames) false :=
    fun other isOther _ => Nat.lt_succ_of_le (fits.2 other (next.property.symm.trans isOther))
  calc read outer ⟨frames, .start whole⟩ (left.yield ++ sign.val :: right.yield ++ next.val :: rest)
      = read outer ⟨frames, .start whole⟩
          (left.yield ++ sign.val :: (right.yield ++ next.val :: rest)) := by
        rw [List.append_assoc, List.cons_append]
    _ = read outer ⟨frames, .continuation left.expr false⟩
          (sign.val :: (right.yield ++ next.val :: rest)) :=
        leftRuns sign _ isTop leftFits clear.1
    _ = read outer ⟨.rightOf op left.expr start :: frames, .start false⟩
          (right.yield ++ next.val :: rest) := by
        apply read_of_shift
        change Reading.settle outer sign.val frames left.expr false = _
        rw [Reading.settle_of_operator sign.property fits.1, starts]
        rfl
    _ = read outer ⟨.rightOf op left.expr start :: frames, .continuation right.expr false⟩
          (next.val :: rest) := by
        apply rightRuns next rest _ rightFits clear.2
        rwa [Frame.openBindings_cons outer frames rfl]
    _ = read outer ⟨frames, .continuation (.binary op left.expr right.expr left.expr.place) false⟩
          (next.val :: rest) := by
        rw [starts]
        exact read_leave rfl unextended (by rw [Reading.settle]) rest

theorem unary {op : UnaryOp} (sign : Token.Of op.kind) {inner : Tree top (.operand 6)}
    (innerRuns : Runs outer inner) : Runs outer (.unary op sign inner) := by
  intro frames whole kind next rest isTop fits clear
  have innerFits : Category.Fits (.operand op sign.val.position :: frames) false kind (.operand 6) :=
    ⟨Nat.le_refl _, fits.2⟩
  have unextended : Reading.Unextended next.val.kind (.operand op sign.val.position :: frames) false :=
    fun other _ _ => other.level_lt_levels
  calc read outer ⟨frames, .start whole⟩ (sign.val :: inner.yield ++ next.val :: rest)
      = read outer ⟨.operand op sign.val.position :: frames, .start false⟩
          (inner.yield ++ next.val :: rest) := by
        apply read_of_shift
        rw [Reading.step_start, Reading.begin, sign.property]
        cases op <;> rfl
    _ = read outer ⟨.operand op sign.val.position :: frames, .continuation inner.expr false⟩
          (next.val :: rest) := by
        apply innerRuns next rest _ innerFits clear
        rwa [Frame.openBindings_cons outer frames rfl]
    _ = read outer ⟨frames, .continuation (.unary op inner.expr (some sign.val.position)) false⟩
          (next.val :: rest) :=
        read_leave rfl unextended (by rw [Reading.settle]) rest

theorem paren (leftParen : Token.Of (.symbol .leftParen)) {inner : Tree top .expression}
    (rightParen : Token.Of (.symbol .rightParen)) (innerRuns : Runs outer inner) :
    Runs outer (.paren leftParen inner rightParen) := by
  intro frames whole kind next rest isTop fits clear
  calc read outer ⟨frames, .start whole⟩
          (leftParen.val :: inner.yield ++ [rightParen.val] ++ next.val :: rest)
      = read outer ⟨.paren :: frames, .start true⟩
          (inner.yield ++ rightParen.val :: next.val :: rest) := by
        rw [List.append_assoc, List.cons_append]
        apply read_of_shift
        rw [Reading.step_start, Reading.begin, leftParen.property]
        rfl
    _ = read outer ⟨.paren :: frames, .continuation inner.expr false⟩
          (rightParen.val :: next.val :: rest) := by
        apply innerRuns rightParen _ _ (Category.fits_expression rfl (by decide)) clear
        rwa [Frame.openBindings_cons outer frames rfl]
    _ = read outer ⟨frames, .continuation inner.expr false⟩ (next.val :: rest) :=
        read_word rightParen (by decide) rfl _

/-- Inside a binding no `end` belongs to a conditional. -/
theorem binding (letWord : Token.Of (.keyword .letWord)) (name : Token.Of .identifier)
    (arrow : Token.Of (.symbol .assign)) {bound : Tree false .expression}
    (inWord : Token.Of (.keyword .inWord)) {body : Tree false .expression}
    (endWord : Token.Of (.keyword .endWord)) (boundRuns : Runs outer bound)
    (bodyRuns : Runs outer body) :
    Runs outer (.binding letWord name arrow bound inWord body endWord : Tree top .primary) := by
  intro frames whole kind next rest isTop fits clear
  have inside {frame : Frame} (binding : frame.isBinding = true) :
      Frame.openBindings outer (frame :: frames) = 0 ↔ false = true :=
    iff_of_false (Frame.openBindings_cons_ne_zero outer frames binding) Bool.false_ne_true
  let start := letWord.val.position
  calc read outer ⟨frames, .start whole⟩ (letWord.val :: name.val :: arrow.val :: bound.yield
          ++ inWord.val :: body.yield ++ [endWord.val] ++ next.val :: rest)
      = read outer ⟨frames, .start whole⟩ (letWord.val :: name.val :: arrow.val :: (bound.yield
          ++ inWord.val :: (body.yield ++ endWord.val :: next.val :: rest))) := by
        simp only [List.append_assoc, List.cons_append, List.nil_append]
    _ = read outer ⟨frames, .binder start⟩ (name.val :: arrow.val :: (bound.yield
          ++ inWord.val :: (body.yield ++ endWord.val :: next.val :: rest))) := by
        apply read_of_shift
        rw [Reading.step_start, Reading.begin, letWord.property]
    _ = read outer ⟨frames, .arrow name.val.text start⟩ (arrow.val :: (bound.yield
          ++ inWord.val :: (body.yield ++ endWord.val :: next.val :: rest))) :=
        read_of_shift (by exact Reading.demand_of_kind name.property _) _
    _ = read outer ⟨.bound name.val.text start :: frames, .start true⟩ (bound.yield
          ++ inWord.val :: (body.yield ++ endWord.val :: next.val :: rest)) :=
        read_of_shift (by exact Reading.demand_of_kind arrow.property _) _
    _ = read outer ⟨.bound name.val.text start :: frames, .continuation bound.expr false⟩
          (inWord.val :: (body.yield ++ endWord.val :: next.val :: rest)) :=
        boundRuns inWord _ (inside rfl) (Category.fits_expression rfl (by decide)) clear.1
    _ = read outer ⟨.body name.val.text bound.expr start :: frames, .start true⟩
          (body.yield ++ endWord.val :: next.val :: rest) :=
        read_word inWord (by decide) rfl _
    _ = read outer ⟨.body name.val.text bound.expr start :: frames, .continuation body.expr false⟩
          (endWord.val :: next.val :: rest) :=
        bodyRuns endWord _ (inside rfl) (Category.fits_expression rfl (by decide)) clear.2
    _ = read outer ⟨frames, .continuation (.letIn name.val.text bound.expr body.expr (some start)) false⟩
          (next.val :: rest) :=
        read_word endWord (by decide) rfl _

/-- The words of a conditional up to its last branch. -/
theorem upToAlternate (ifWord : Token.Of (.keyword .ifWord)) {condition : Tree top .expression}
    (thenWord : Token.Of (.keyword .thenWord)) {consequent : Tree top .expression}
    (elseWord : Token.Of (.keyword .elseWord)) (conditionRuns : Runs outer condition)
    (consequentRuns : Runs outer consequent)
    (conditionClear : condition.Each Clear (.keyword .thenWord))
    (consequentClear : consequent.Each Clear (.keyword .elseWord)) {frames : List Frame}
    (isTop : Frame.openBindings outer frames = 0 ↔ top = true) (whole : Bool) (rest : List Token) :
    read outer ⟨frames, .start whole⟩ (ifWord.val :: (condition.yield ++ thenWord.val ::
        (consequent.yield ++ elseWord.val :: rest))) =
      read outer ⟨.alternate whole condition.expr consequent.expr ifWord.val.position :: frames,
        .start true⟩ rest := by
  let start := ifWord.val.position
  have inside {frame : Frame} (plain : frame.isBinding = false) :
      Frame.openBindings outer (frame :: frames) = 0 ↔ top = true := by
    rwa [Frame.openBindings_cons outer frames plain]
  calc read outer ⟨frames, .start whole⟩ (ifWord.val :: (condition.yield ++ thenWord.val ::
          (consequent.yield ++ elseWord.val :: rest)))
      = read outer ⟨.condition whole start :: frames, .start true⟩ (condition.yield
          ++ thenWord.val :: (consequent.yield ++ elseWord.val :: rest)) := by
        apply read_of_shift
        rw [Reading.step_start, Reading.begin, ifWord.property]
        rfl
    _ = read outer ⟨.condition whole start :: frames, .continuation condition.expr false⟩
          (thenWord.val :: (consequent.yield ++ elseWord.val :: rest)) :=
        conditionRuns thenWord _ (inside rfl) (Category.fits_expression rfl (by decide)) conditionClear
    _ = read outer ⟨.consequent whole condition.expr start :: frames, .start true⟩
          (consequent.yield ++ elseWord.val :: rest) :=
        read_word thenWord (by decide) rfl _
    _ = read outer ⟨.consequent whole condition.expr start :: frames,
          .continuation consequent.expr false⟩ (elseWord.val :: rest) :=
        consequentRuns elseWord _ (inside rfl) (Category.fits_expression rfl (by decide)) consequentClear
    _ = read outer ⟨.alternate whole condition.expr consequent.expr start :: frames, .start true⟩
          rest :=
        read_word elseWord (by decide) rfl _

/-- The last branch, and the `end` of the conditional if it has one. -/
theorem conditional (ifWord : Token.Of (.keyword .ifWord)) {condition : Tree top .expression}
    (thenWord : Token.Of (.keyword .thenWord)) {consequent : Tree top .expression}
    (elseWord : Token.Of (.keyword .elseWord)) {alternate : Tree top .expression}
    (closing : Option (Token.Of (.keyword .endWord))) (onlyTop : closing.isSome = true -> top = true)
    (conditionRuns : Runs outer condition) (consequentRuns : Runs outer consequent)
    (alternateRuns : Runs outer alternate) :
    Runs outer (.conditional ifWord condition thenWord consequent elseWord alternate closing onlyTop) := by
  intro frames whole kind next rest isTop fits clear
  rcases clear with ⟨⟨takesEnd, plain⟩, conditionClear, consequentClear, alternateClear⟩
  let start := ifWord.val.position
  let frame := Frame.alternate whole condition.expr consequent.expr start
  let result := Expr.ite condition.expr consequent.expr alternate.expr (some start)
  have inside : Frame.openBindings outer (frame :: frames) = 0 ↔ top = true := by
    rwa [Frame.openBindings_cons outer frames rfl]
  have front := upToAlternate ifWord thenWord elseWord conditionRuns consequentRuns conditionClear
    consequentClear isTop whole
  have nextPlain : ¬ next.val.kind.IsOperator := by rwa [next.property]
  cases closing with
  | none =>
      have kept : next.val.kind = .keyword .endWord -> Frame.openBindings outer frames ≠ 0 :=
        fun isWord noneOpen => takesEnd (isTop.mp noneOpen) rfl (next.property.symm.trans isWord)
      calc read outer ⟨frames, .start whole⟩ (ifWord.val :: condition.yield ++ thenWord.val ::
              consequent.yield ++ elseWord.val :: alternate.yield ++ [] ++ next.val :: rest)
          = read outer ⟨frame :: frames, .start true⟩ (alternate.yield ++ next.val :: rest) := by
            rw [← front]
            simp only [List.append_assoc, List.cons_append, List.nil_append]
        _ = read outer ⟨frame :: frames, .continuation alternate.expr false⟩ (next.val :: rest) :=
            alternateRuns next _ inside (Category.fits_expression rfl plain) alternateClear
        _ = read outer ⟨frames, .continuation result whole⟩ (next.val :: rest) :=
            read_alternate nextPlain kept whole _ _ start _ false rest
        _ = read outer ⟨frames, .continuation result false⟩ (next.val :: rest) :=
            read_closed nextPlain frames result whole rest
  | some endWord =>
      have endPlain : ¬ endWord.val.kind.IsOperator := by
        rw [endWord.property]
        decide
      calc read outer ⟨frames, .start whole⟩ (ifWord.val :: condition.yield ++ thenWord.val ::
              consequent.yield ++ elseWord.val :: alternate.yield ++ [endWord.val] ++ next.val :: rest)
          = read outer ⟨frame :: frames, .start true⟩
              (alternate.yield ++ endWord.val :: next.val :: rest) := by
            rw [← front]
            simp only [List.append_assoc, List.cons_append, List.nil_append]
        _ = read outer ⟨frame :: frames, .continuation alternate.expr false⟩
              (endWord.val :: next.val :: rest) :=
            alternateRuns endWord _ inside (Category.fits_expression rfl (by decide)) alternateClear
        _ = read outer ⟨frames, .continuation result whole⟩ (next.val :: rest) := by
            apply read_of_shift
            change Reading.settle outer endWord.val (frame :: frames) alternate.expr false = _
            rw [Reading.settle,
              Reading.extendOr_of_unextended (Reading.unextended_of_plain endPlain _ _),
              if_pos ⟨isTop.mpr (onlyTop rfl), endWord.property⟩]
        _ = read outer ⟨frames, .continuation result false⟩ (next.val :: rest) :=
            read_closed nextPlain frames result whole rest

end Runs

/-- Reading the yield of a clear tree leads to its expression, whatever the tree. -/
theorem runs (outer : Nat) {top : Bool} {category : Category} (tree : Tree top category) :
    Runs outer tree := by
  induction tree with
  | whole inner ih => exact fun next rest isTop _ clear => ih next rest isTop trivial clear
  | loosest inner ih =>
      intro frames whole kind next rest isTop fits clear
      rcases fits with ⟨_, floor, plain⟩
      exact ih next rest isTop ⟨Nat.le_of_eq floor, fun op isOp => absurd ⟨op, isOp⟩ plain⟩ clear
  | conditional ifWord condition thenWord consequent elseWord alternate closing onlyTop conditionIh
      consequentIh alternateIh =>
      exact Runs.conditional ifWord thenWord elseWord closing onlyTop conditionIh consequentIh alternateIh
  | tighter below inner ih =>
      intro frames whole kind next rest isTop fits clear
      have looser := fun op isOp => Nat.le_succ_of_le (fits.2 op isOp)
      exact ih next rest isTop ⟨Nat.le_succ_of_le fits.1, looser⟩ clear
  | binary op atLevel left sign right leftIh rightIh => exact Runs.binary atLevel sign leftIh rightIh
  | unary op sign inner ih => exact Runs.unary sign ih
  | tightest inner ih => exact fun next rest isTop _ clear => ih next rest isTop trivial clear
  | number token value literal =>
      apply Runs.leaf rfl
      intro frames whole
      rw [Reading.begin, token.property]
      simp only [literal]
      rfl
  | trueWord token =>
      exact Runs.leaf rfl (fun _ _ => by rw [Reading.begin, token.property]; rfl)
  | falseWord token =>
      exact Runs.leaf rfl (fun _ _ => by rw [Reading.begin, token.property]; rfl)
  | identifier token =>
      exact Runs.leaf rfl (fun _ _ => by rw [Reading.begin, token.property]; rfl)
  | paren leftParen inner rightParen ih => exact Runs.paren leftParen rightParen ih
  | binding letWord name arrow bound inWord body endWord boundIh bodyIh =>
      exact Runs.binding letWord name arrow inWord endWord boundIh bodyIh
  | operandConditional inner ih =>
      exact fun next rest isTop _ clear => ih next rest isTop trivial clear

/-! ## Programs -/

/-- The yield of a clear tree is accepted as the expression of the tree. -/
theorem program_yield {tree : Tree true .expression} (clear : tree.Each Clear .endOfInput)
    (finish : Token.Of .endOfInput) :
    (Parser.ofTokens (tree.yield ++ [finish.val])).program.1 = .ok tree.expr := by
  have isTop : Frame.openBindings 0 [] = 0 ↔ true = true := iff_of_true rfl rfl
  have fits : Category.Fits [] true .endOfInput .expression := Category.fits_expression rfl (by decide)
  exact (program_eq_ok_iff finish.property tree.expr).mpr
    ⟨_, (runs 0 tree finish [] isTop fits clear).trans (read_finish 0 finish.property tree.expr false)⟩

/-- The tokens of a derivation in which no conditional has an operator directly behind it, or an
`end` that it could take, are accepted as the derived expression; and all such derivations of
these tokens derive that one expression. -/
theorem program_of_clear_tree (tree : Tree true .expression) (clear : tree.Each Clear .endOfInput)
    (finish : Token) (isEnd : finish.kind = .endOfInput) :
    (Parser.ofTokens (tree.yield ++ [finish])).program.1 = .ok tree.expr ∧
      forall other : Tree true .expression, other.Each Clear .endOfInput ->
        other.yield = tree.yield -> other.expr = tree.expr := by
  have accepted := program_yield clear ⟨finish, isEnd⟩
  refine ⟨accepted, ?_⟩
  intro other otherClear sameYield
  have otherAccepted := program_yield otherClear ⟨finish, isEnd⟩
  rw [sameYield, accepted] at otherAccepted
  exact (Except.ok.inj otherAccepted).symm

/-- A token on the first line. -/
def mark {kind : Token.Kind} (text : Text) (column : Nat) : Token.Of kind :=
  ⟨⟨kind, text, ⟨1, column⟩⟩, rfl⟩

/-- The derivation of `if true then 1 else let x <- 2 in if false then x * 3 else x end end`.  The
first `end` belongs to the binding and the second to the outer conditional. -/
def nestedTree : Tree true .expression :=
  .whole (.conditional (mark "if" 0) (.ofPrimary (.trueWord (mark "true" 3)))
    (mark "then" 8) (.ofPrimary (.number (mark "1" 13) 1 (by decide))) (mark "else" 15)
    (.ofPrimary (.binding (mark "let" 20) (mark "x" 24) (mark "<-" 26)
      (.ofPrimary (.number (mark "2" 29) 2 (by decide))) (mark "in" 31)
      (.whole (.conditional (mark "if" 34) (.ofPrimary (.falseWord (mark "false" 37)))
        (mark "then" 43)
        (.loosest (.loosen 5 (.binary .mul (by decide)
          (.loosen 1 (.tightest (.identifier (mark "x" 48)))) (mark "*" 50)
          (.tightest (.number (mark "3" 52) 3 (by decide))))))
        (mark "else" 54) (.ofPrimary (.identifier (mark "x" 59))) none
        (fun closes => nomatch closes)))
      (mark "end" 61)))
    (some (mark "end" 65)) (fun _ => rfl))

theorem program_of_nested : nestedTree.Each Clear .endOfInput ∧
    (Parser.ofTokens (nestedTree.yield ++ [Token.finish ⟨1, 68⟩])).program.1 = .ok nestedTree.expr := by
  have clear : nestedTree.Each Clear .endOfInput := by
    refine ⟨⟨(fun _ noEnd => nomatch noEnd), by decide⟩, trivial, trivial, trivial, ?_⟩
    exact ⟨⟨(fun isTop => nomatch isTop), by decide⟩, trivial, ⟨trivial, trivial⟩, trivial⟩
  exact ⟨clear, (program_of_clear_tree nestedTree clear _ rfl).1⟩

end Grammar

end Monotype
