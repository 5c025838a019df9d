import Monotype.Proofs.Grammar

namespace Monotype

/-!
# What is read has a derivation

A reading stands for the tokens that it has read so far.  `Opened` says which tokens have
opened the frames of a reading: the finished parts of each frame have derivation trees, and
their conditionals have taken what they could of the tokens behind them.  `Reads` adds what
stands behind the frames.  One token takes a reading that stands for some tokens to one that
stands for these and the token, so an accepted program has a derivation tree whose yield is
the list of all tokens in front of the end token.

The frames know whether the hole of the innermost one is for a whole expression or for an
operand.  Only in the former can a conditional be finished that no operator may extend.
-/

namespace Frame

/-- Whether the hole of the innermost frame is one for a whole expression. -/
def takesWhole : List Frame -> Bool
  | operand _ _ :: _ => false
  | rightOf _ _ _ :: _ => false
  | _ => true

theorem floor_of_takesWhole {frames : List Frame} (hole : takesWhole frames = true) :
    floor frames = 0 := by
  cases frames with
  | nil => rfl
  | cons frame rest =>
      cases frame with
      | operand op start => cases hole
      | rightOf op left start => cases hole
      | _ => rfl

theorem floor_le (frames : List Frame) : floor frames ≤ 6 := by
  cases frames with
  | nil => exact Nat.zero_le 6
  | cons frame rest =>
      cases frame with
      | operand op start => exact Nat.le_refl 6
      | rightOf op left start => exact op.level_lt_levels
      | _ => exact Nat.zero_le 6

end Frame

namespace Grammar

open Grammar.Tree

section

variable {top : Bool} (ifWord : Token.Of (.keyword .ifWord)) (thenWord : Token.Of (.keyword .thenWord))
  (elseWord : Token.Of (.keyword .elseWord)) {condition consequent alternate : Tree top .expression}
  (conditionGreedy : condition.Each Greedy (.keyword .thenWord))
  (consequentGreedy : consequent.Each Greedy (.keyword .elseWord))

include conditionGreedy consequentGreedy

/-- A conditional with its own `end` leaves nothing to the token behind it. -/
theorem Tree.closed_greedy (alternateGreedy : alternate.Each Greedy (.keyword .endWord))
    (closing : Token.Of (.keyword .endWord)) (onlyTop : (some closing).isSome = true -> top = true)
    (next : Token.Kind) :
    (conditional ifWord condition thenWord consequent elseWord alternate (some closing) onlyTop).Each
      Greedy next :=
  ⟨⟨(fun _ noEnd => nomatch noEnd), fun _ => rfl⟩, conditionGreedy, consequentGreedy, alternateGreedy⟩

theorem Tree.open_greedy {next : Token.Kind} (alternateGreedy : alternate.Each Greedy next)
    (lastIsEnd : next.IsOperator -> alternate.lastIsEnd = true)
    (takesEnd : top = true -> next ≠ .keyword .endWord) :
    (conditional ifWord condition thenWord consequent elseWord alternate none
      (fun closes => nomatch closes)).Each Greedy next :=
  ⟨⟨fun isTop _ => takesEnd isTop, lastIsEnd⟩, conditionGreedy, consequentGreedy, alternateGreedy⟩

end

/-! ## Readings and the tokens they stand for -/

/-- The frames have been opened by the tokens; `top` says that none of them is a binding. -/
inductive Opened : (top : Bool) -> List Token -> List Frame -> Prop where
  | nil : Opened true [] []
  | operand {top : Bool} {tokens : List Token} {frames : List Frame} (op : UnaryOp)
      (sign : Token.Of op.kind) (outside : Opened top tokens frames) :
      Opened top (tokens ++ [sign.val]) (.operand op sign.val.position :: frames)
  | rightOf {top : Bool} {tokens : List Token} {frames : List Frame} (op : BinaryOp)
      (left : Tree top (.operand op.level)) (sign : Token.Of op.kind) {start : Position}
      (starts : left.expr.place = some start) (greedy : left.Each Greedy op.kind)
      (binds : Frame.floor frames ≤ op.level) (outside : Opened top tokens frames) :
      Opened top (tokens ++ left.yield ++ [sign.val]) (.rightOf op left.expr start :: frames)
  | paren {top : Bool} {tokens : List Token} {frames : List Frame}
      (leftParen : Token.Of (.symbol .leftParen)) (outside : Opened top tokens frames) :
      Opened top (tokens ++ [leftParen.val]) (.paren :: frames)
  | bound {top : Bool} {tokens : List Token} {frames : List Frame}
      (letWord : Token.Of (.keyword .letWord)) (name : Token.Of .identifier)
      (arrow : Token.Of (.symbol .assign)) (outside : Opened top tokens frames) :
      Opened false (tokens ++ [letWord.val, name.val, arrow.val])
        (.bound name.val.text letWord.val.position :: frames)
  | body {top : Bool} {tokens : List Token} {frames : List Frame}
      (letWord : Token.Of (.keyword .letWord)) (name : Token.Of .identifier)
      (arrow : Token.Of (.symbol .assign)) (bound : Tree false .expression)
      (inWord : Token.Of (.keyword .inWord)) (greedy : bound.Each Greedy (.keyword .inWord))
      (outside : Opened top tokens frames) :
      Opened false
        (tokens ++ [letWord.val, name.val, arrow.val] ++ bound.yield ++ [inWord.val])
        (.body name.val.text bound.expr letWord.val.position :: frames)
  | condition {top : Bool} {tokens : List Token} {frames : List Frame} (whole : Bool)
      (hole : whole = true -> Frame.takesWhole frames = true) (ifWord : Token.Of (.keyword .ifWord))
      (outside : Opened top tokens frames) :
      Opened top (tokens ++ [ifWord.val]) (.condition whole ifWord.val.position :: frames)
  | consequent {top : Bool} {tokens : List Token} {frames : List Frame} (whole : Bool)
      (hole : whole = true -> Frame.takesWhole frames = true) (ifWord : Token.Of (.keyword .ifWord))
      (condition : Tree top .expression) (thenWord : Token.Of (.keyword .thenWord))
      (conditionGreedy : condition.Each Greedy (.keyword .thenWord))
      (outside : Opened top tokens frames) :
      Opened top (tokens ++ [ifWord.val] ++ condition.yield ++ [thenWord.val])
        (.consequent whole condition.expr ifWord.val.position :: frames)
  | alternate {top : Bool} {tokens : List Token} {frames : List Frame} (whole : Bool)
      (hole : whole = true -> Frame.takesWhole frames = true) (ifWord : Token.Of (.keyword .ifWord))
      (condition : Tree top .expression) (thenWord : Token.Of (.keyword .thenWord))
      (conditionGreedy : condition.Each Greedy (.keyword .thenWord))
      (consequent : Tree top .expression) (elseWord : Token.Of (.keyword .elseWord))
      (consequentGreedy : consequent.Each Greedy (.keyword .elseWord))
      (outside : Opened top tokens frames) :
      Opened top
        (tokens ++ [ifWord.val] ++ condition.yield ++ [thenWord.val] ++ consequent.yield
          ++ [elseWord.val])
        (.alternate whole condition.expr consequent.expr ifWord.val.position :: frames)

theorem Opened.openBindings_eq_zero_iff {top : Bool} {tokens : List Token} {frames : List Frame}
    (opened : Opened top tokens frames) : Frame.openBindings 0 frames = 0 ↔ top = true := by
  induction opened with
  | nil => exact ⟨fun _ => rfl, fun _ => rfl⟩
  | bound letWord name arrow outside ih =>
      exact iff_of_false (Frame.openBindings_cons_ne_zero _ _ rfl) Bool.false_ne_true
  | body letWord name arrow bound inWord greedy outside ih =>
      exact iff_of_false (Frame.openBindings_cons_ne_zero _ _ rfl) Bool.false_ne_true
  | _ =>
      rw [Frame.openBindings_cons _ _ rfl]
      assumption

/-- The reading has been reached by the tokens.  Behind a complete expression nothing is
known of the next token, so all its conditionals are closed. -/
inductive Reads : List Token -> Reading -> Prop where
  | expression {top : Bool} {tokens : List Token} {frames : List Frame}
      (opened : Opened top tokens frames) (hole : Frame.takesWhole frames = true) :
      Reads tokens ⟨frames, .expression⟩
  | operand {top : Bool} {tokens : List Token} {frames : List Frame}
      (opened : Opened top tokens frames) : Reads tokens ⟨frames, .operand⟩
  | binder {top : Bool} {tokens : List Token} {frames : List Frame}
      (opened : Opened top tokens frames) (letWord : Token.Of (.keyword .letWord)) :
      Reads (tokens ++ [letWord.val]) ⟨frames, .binder letWord.val.position⟩
  | arrow {top : Bool} {tokens : List Token} {frames : List Frame}
      (opened : Opened top tokens frames) (letWord : Token.Of (.keyword .letWord))
      (name : Token.Of .identifier) :
      Reads (tokens ++ [letWord.val, name.val])
        ⟨frames, .arrow name.val.text letWord.val.position⟩
  | primary {top : Bool} {tokens : List Token} {frames : List Frame}
      (opened : Opened top tokens frames) (tree : Tree top .primary)
      (greedy : forall next, tree.Each Greedy next) :
      Reads (tokens ++ tree.yield) ⟨frames, .continuation tree.expr false⟩
  | whole {top : Bool} {tokens : List Token} {frames : List Frame}
      (opened : Opened top tokens frames) (tree : Tree top .conditional)
      (greedy : forall next, tree.Each Greedy next) (hole : Frame.takesWhole frames = true) :
      Reads (tokens ++ tree.yield) ⟨frames, .continuation tree.expr true⟩

/-- An expression that is complete when a token of kind `next` comes. -/
inductive Finished (next : Token.Kind) (frames : List Frame) (top : Bool) :
    List Token -> Expr -> (closed : Bool) -> Prop where
  | operand {level : Nat} (tree : Tree top (.operand level)) (greedy : tree.Each Greedy next)
      (binds : Frame.floor frames ≤ level)
      (ends : forall op : BinaryOp, next = op.kind -> op.level ≤ level) :
      Finished next frames top tree.yield tree.expr false
  | whole (tree : Tree top .conditional) (greedy : tree.Each Greedy next)
      (hole : Frame.takesWhole frames = true) : Finished next frames top tree.yield tree.expr true

section

variable {top : Bool} {tokens : List Token} {frames : List Frame} (tree : Tree top .conditional)
  (whole : Bool) (hole : whole = true -> Frame.takesWhole frames = true)

include hole

theorem Reads.conditional (opened : Opened top tokens frames)
    (greedy : forall next, tree.Each Greedy next) :
    Reads (tokens ++ tree.yield) ⟨frames, .continuation tree.expr whole⟩ := by
  cases whole with
  | false => exact .primary opened (.operandConditional tree) greedy
  | true => exact .whole opened tree greedy (hole rfl)

theorem Finished.conditional {next : Token.Kind} (greedy : tree.Each Greedy next) :
    Finished next frames top tree.yield tree.expr whole := by
  cases whole with
  | false =>
      exact .operand (.tightest (.operandConditional tree)) greedy (Frame.floor_le frames)
        (fun op _ => Nat.le_of_lt op.level_lt_levels)
  | true => exact .whole tree greedy (hole rfl)

end

/-- The effect of a token on a reading that stands for the given tokens is sound if the next
reading stands for these and the token, and an accepted program has a derivation. -/
def Sound (tokens : List Token) (token : Token) : Reading.Step -> Prop
  | .shift next => Reads (tokens ++ [token]) next
  | .accept e => token.kind = .endOfInput ∧
      exists tree : Tree true .expression,
        tree.yield = tokens ∧ tree.expr = e ∧ tree.Each Greedy token.kind
  | .refuse _ _ => True

/-! ## One token -/

section

variable {top closed : Bool} {tokens yield : List Token} {frames : List Frame} {e : Expr}
  {token : Token}

/-- A complete expression that the next token does not extend, where a whole expression is
wanted. -/
theorem Finished.exists_expression {next : Token.Kind} (finished : Finished next frames top yield e closed)
    (hole : Frame.takesWhole frames = true)
    (unextended : Reading.Unextended next frames closed) :
    exists tree : Tree top .expression, tree.yield = yield ∧ tree.expr = e ∧
      tree.Each Greedy next ∧ (next.IsOperator -> tree.lastIsEnd = true) := by
  cases finished with
  | operand tree greedy binds ends =>
      rcases tree.exists_looser (Nat.zero_le _) with ⟨looser, sameYield, sameExpr, keeps⟩
      refine ⟨.loosest looser, sameYield, sameExpr, keeps Greedy next greedy, ?_⟩
      rintro ⟨op, isOp⟩
      have level := unextended op isOp rfl
      rw [Frame.floor_of_takesWhole hole] at level
      exact absurd level (Nat.not_lt_zero _)
  | whole tree greedy hole =>
      refine ⟨.whole tree, rfl, rfl, greedy, ?_⟩
      cases tree with
      | conditional => exact greedy.1.2

theorem demand_sound {wanted : Token.Kind} {next : Reading}
    (fits : token.kind = wanted -> Reads (tokens ++ [token]) next) :
    Sound tokens token (Reading.demand wanted token next) := by
  unfold Reading.demand
  split
  · next same => exact fits same
  · trivial

theorem extendOr_sound {otherwise : Unit -> Reading.Step} (opened : Opened top tokens frames)
    (finished : Finished token.kind frames top yield e closed)
    (others : Reading.Unextended token.kind frames closed ->
      Sound (tokens ++ yield) token (otherwise ())) :
    Sound (tokens ++ yield) token (Reading.extendOr token frames e closed otherwise) := by
  by_cases unextended : Reading.Unextended token.kind frames closed
  · rw [Reading.extendOr_of_unextended unextended]
    exact others unextended
  · simp only [Reading.Unextended, not_forall, Nat.not_lt] at unextended
    rcases unextended with ⟨op, isOp, notClosed, binds⟩
    cases finished with
    | operand tree greedy _ ends =>
        rcases tree.exists_looser (ends op isOp) with ⟨left, sameYield, sameExpr, keeps⟩
        rcases left.exists_place with ⟨start, starts⟩
        rw [Reading.extendOr_of_operator isOp binds, ← sameYield, ← sameExpr, starts]
        have leftGreedy := keeps Greedy token.kind greedy
        rw [isOp] at leftGreedy
        exact .operand (.rightOf op left ⟨token, isOp⟩ starts leftGreedy binds opened)
    | whole => cases notClosed

/-- A complete expression in a frame for a whole expression, where one kind of token is wanted. -/
theorem wanted_sound {wanted : Token.Kind} {next : Expr -> Reading} (opened : Opened top tokens frames)
    (finished : Finished token.kind frames top yield e closed) (hole : Frame.takesWhole frames = true)
    (reads : forall (tree : Tree top .expression) (word : Token.Of wanted), tree.Each Greedy wanted ->
      Reads (tokens ++ tree.yield ++ [word.val]) (next tree.expr)) :
    Sound (tokens ++ yield) token
      (Reading.extendOr token frames e closed (fun _ => Reading.demand wanted token (next e))) := by
  refine extendOr_sound opened finished (fun unextended => ?_)
  rcases finished.exists_expression hole unextended with ⟨tree, rfl, rfl, greedy, _⟩
  apply demand_sound
  intro isWanted
  rw [isWanted] at greedy
  exact reads tree ⟨token, isWanted⟩ greedy

/-- A token behind a complete expression.  The induction leaves the frames from the inside
out; the finished expression of each case is the one of the case before in its frame. -/
theorem settle_sound (opened : Opened top tokens frames)
    (finished : Finished token.kind frames top yield e closed) :
    Sound (tokens ++ yield) token (Reading.settle 0 token frames e closed) := by
  induction opened generalizing yield e closed with
  | nil =>
      rw [Reading.settle]
      refine extendOr_sound .nil finished (fun unextended => ?_)
      rcases finished.exists_expression rfl unextended with ⟨tree, rfl, rfl, greedy, _⟩
      split
      · next isEnd => exact ⟨isEnd, tree, rfl, rfl, greedy⟩
      · trivial
  | operand op sign outside ih =>
      rw [Reading.settle]
      refine extendOr_sound (.operand op sign outside) finished (fun _ => ?_)
      cases finished with
      | whole tree greedy hole => cases hole
      | operand tree greedy binds ends =>
          rcases tree.exists_looser binds with ⟨inner, sameYield, sameExpr, keeps⟩
          have settled := ih (.operand (.unary op sign inner) (keeps Greedy _ greedy) (Frame.floor_le _)
            (fun other _ => Nat.le_of_lt other.level_lt_levels))
          rw [← sameYield, ← sameExpr, List.append_assoc]
          exact settled
  | rightOf op left sign starts leftGreedy outer outside ih =>
      rw [Reading.settle]
      refine extendOr_sound (.rightOf op left sign starts leftGreedy outer outside) finished
        (fun unextended => ?_)
      cases finished with
      | whole tree greedy hole => cases hole
      | operand tree greedy binds ends =>
          rcases tree.exists_looser (show op.level + 1 ≤ _ from binds) with
            ⟨right, sameYield, sameExpr, keeps⟩
          have fits := (mem_operators_iff op op.level).mpr rfl
          have settled := ih (.operand (.binary op fits left sign right)
            ⟨leftGreedy, keeps Greedy _ greedy⟩ outer
            (fun other isOther => Nat.le_of_lt_succ (unextended other isOther rfl)))
          rw [← sameYield, ← sameExpr]
          simpa only [Tree.yield, Tree.expr, starts, List.append_assoc, List.cons_append,
            List.nil_append] using settled
  | paren leftParen outside ih =>
      rw [Reading.settle]
      apply wanted_sound (.paren leftParen outside) finished rfl
      intro tree rightParen greedy
      have reads := Reads.primary outside (.paren leftParen tree rightParen) (fun _ => greedy)
      simpa only [Tree.yield, Tree.expr, List.append_assoc, List.cons_append, List.nil_append] using reads
  | bound letWord name arrow outside ih =>
      rw [Reading.settle]
      apply wanted_sound (.bound letWord name arrow outside) finished rfl
      intro tree inWord greedy
      exact .expression (.body letWord name arrow tree inWord greedy outside) rfl
  | body letWord name arrow bound inWord boundGreedy outside ih =>
      rw [Reading.settle]
      apply wanted_sound (.body letWord name arrow bound inWord boundGreedy outside) finished rfl
      intro tree endWord greedy
      have reads := Reads.primary outside (.binding letWord name arrow bound inWord tree endWord)
        (fun _ => ⟨boundGreedy, greedy⟩)
      simpa only [Tree.yield, Tree.expr, List.append_assoc, List.cons_append, List.nil_append] using reads
  | condition whole hole ifWord outside ih =>
      rw [Reading.settle]
      apply wanted_sound (.condition whole hole ifWord outside) finished rfl
      intro tree thenWord greedy
      exact .expression (.consequent whole hole ifWord tree thenWord greedy outside) rfl
  | consequent whole hole ifWord condition thenWord conditionGreedy outside ih =>
      rw [Reading.settle]
      apply wanted_sound (.consequent whole hole ifWord condition thenWord conditionGreedy outside)
        finished rfl
      intro tree elseWord greedy
      exact .expression (.alternate whole hole ifWord condition thenWord conditionGreedy tree elseWord
        greedy outside) rfl
  | alternate whole hole ifWord condition thenWord conditionGreedy consequent elseWord consequentGreedy
      outside ih =>
      rw [Reading.settle]
      refine extendOr_sound (.alternate whole hole ifWord condition thenWord conditionGreedy
        consequent elseWord consequentGreedy outside) finished (fun unextended => ?_)
      rcases finished.exists_expression rfl unextended with ⟨tree, rfl, rfl, greedy, lastIsEnd⟩
      split
      · next closes =>
          -- The token is the `end` of the conditional, so nothing behind it matters any more.
          have isTop := outside.openBindings_eq_zero_iff.mp closes.1
          rw [closes.2] at greedy
          have closedGreedy := Tree.closed_greedy ifWord thenWord elseWord conditionGreedy
            consequentGreedy greedy ⟨token, closes.2⟩ (fun _ => isTop)
          have reads := Reads.conditional _ whole hole outside closedGreedy
          simp only [Tree.yield, Tree.expr, List.append_assoc, List.cons_append, Option.toList,
            List.map_cons, List.map_nil] at reads
          simpa only [Sound, List.append_assoc, List.cons_append, List.nil_append] using reads
      · next stays =>
          have openGreedy := Tree.open_greedy ifWord thenWord elseWord conditionGreedy
            consequentGreedy greedy lastIsEnd
            (fun isTop isEnd => stays ⟨outside.openBindings_eq_zero_iff.mpr isTop, isEnd⟩)
          have settled := ih (.conditional _ whole hole openGreedy)
          simpa only [Tree.yield, Tree.expr, List.append_assoc, List.cons_append, List.nil_append,
            Option.toList, List.map_nil, List.append_nil] using settled

/-- A token where an expression or an operand begins. -/
theorem begin_sound (opened : Opened top tokens frames) {whole : Bool}
    (hole : whole = true -> Frame.takesWhole frames = true) :
    Sound tokens token (Reading.begin token frames whole) := by
  unfold Reading.begin
  split
  · next isNumber =>
      split
      · next value literal =>
          exact .primary opened (.number ⟨token, isNumber⟩ value literal) (fun _ => trivial)
      · trivial
  · next isName => exact .primary opened (.identifier ⟨token, isName⟩) (fun _ => trivial)
  · next isTrue => exact .primary opened (.trueWord ⟨token, isTrue⟩) (fun _ => trivial)
  · next isFalse => exact .primary opened (.falseWord ⟨token, isFalse⟩) (fun _ => trivial)
  · next isNot => exact .operand (.operand .not ⟨token, isNot⟩ opened)
  · next isLet => exact .binder opened ⟨token, isLet⟩
  · next isIf => exact .expression (.condition whole hole ⟨token, isIf⟩ opened) rfl
  · next isTilde => exact .operand (.operand .neg ⟨token, isTilde⟩ opened)
  · next isLeft => exact .expression (.paren ⟨token, isLeft⟩ opened) rfl
  · trivial

/-- What one token preserves: readings stand for all tokens read. -/
theorem step_sound {reading : Reading} (reads : Reads tokens reading) :
    Sound tokens token (reading.step 0 token) := by
  cases reads with
  | expression opened hole => exact begin_sound opened (fun _ => hole)
  | operand opened => exact begin_sound opened (fun isWhole => nomatch isWhole)
  | binder opened letWord =>
      apply demand_sound
      intro isName
      rw [List.append_assoc]
      exact .arrow opened letWord ⟨token, isName⟩
  | arrow opened letWord name =>
      apply demand_sound
      intro isArrow
      rw [List.append_assoc]
      exact .expression (.bound letWord name ⟨token, isArrow⟩ opened) rfl
  | primary opened tree greedy =>
      exact settle_sound opened (.operand (.tightest tree) (greedy _) (Frame.floor_le _)
        (fun op _ => Nat.le_of_lt op.level_lt_levels))
  | whole opened tree greedy hole => exact settle_sound opened (.whole tree (greedy _) hole)

end

/-! ## All tokens -/

/-- A program that is accepted is derived by the tokens in front of an end token. -/
theorem read_sound {tokens rest left : List Token} {reading : Reading} {e : Expr}
    (reads : Reads tokens reading) (accepted : Parser.read 0 reading rest = .accepted e left) :
    exists (tree : Tree true .expression) (front behind : List Token) (finish : Token),
      rest = front ++ finish :: behind ∧ finish.kind = .endOfInput ∧
        tree.yield = tokens ++ front ∧ tree.expr = e ∧ tree.Each Greedy .endOfInput := by
  induction rest generalizing tokens reading with
  | nil => cases accepted
  | cons token rest ih =>
      have sound : Sound tokens token (reading.step 0 token) := step_sound reads
      rw [Parser.read] at accepted
      cases effect : reading.step 0 token with
      | shift next =>
          rw [effect] at sound accepted
          rcases ih sound accepted with ⟨tree, front, behind, finish, rfl, isEnd, yields, derives, greedy⟩
          exact ⟨tree, token :: front, behind, finish, rfl, isEnd, by simpa using yields, derives, greedy⟩
      | accept whole =>
          rw [effect] at sound accepted
          cases accepted
          rcases sound with ⟨isEnd, tree, yields, derives, greedy⟩
          rw [isEnd] at greedy
          exact ⟨tree, [], rest, token, rfl, isEnd, by simpa using yields, derives, greedy⟩
      | refuse fault consumed =>
          rw [effect] at accepted
          cases accepted

end Grammar

/-! ## The end token -/

namespace Reading

variable {token : Token}

theorem demand_ne_shift {wanted : Token.Kind} (other : token.kind ≠ wanted) (reading next : Reading) :
    demand wanted token reading ≠ .shift next := by
  unfold demand
  rw [if_neg other]
  exact fun shifted => nomatch shifted

theorem settle_ne_shift (outer : Nat) (isEnd : token.kind = .endOfInput) (frames : List Frame) (e : Expr)
    (closed : Bool) (next : Reading) : settle outer token frames e closed ≠ .shift next := by
  have plain : ¬ token.kind.IsOperator := by
    rw [isEnd]
    decide
  induction frames generalizing e closed with
  | nil =>
      rw [settle, extendOr_of_unextended (unextended_of_plain plain _ _), if_pos isEnd]
      exact fun shifted => nomatch shifted
  | cons frame rest ih =>
      cases frame with
      | operand op start =>
          rw [settle, extendOr_of_unextended (unextended_of_plain plain _ _)]
          exact ih _ _
      | rightOf op left start =>
          rw [settle, extendOr_of_unextended (unextended_of_plain plain _ _)]
          exact ih _ _
      | alternate whole condition consequent start =>
          have noEnd : token.kind ≠ .keyword .endWord := by
            rw [isEnd]
            decide
          rw [settle, extendOr_of_unextended (unextended_of_plain plain _ _),
            if_neg (fun closes => noEnd closes.2)]
          exact ih _ _
      | _ =>
          rw [settle, extendOr_of_unextended (unextended_of_plain plain _ _)]
          apply demand_ne_shift
          rw [isEnd]
          decide

/-- Nothing is read behind the end token. -/
theorem step_ne_shift (outer : Nat) (isEnd : token.kind = .endOfInput) (reading next : Reading) :
    reading.step outer token ≠ .shift next := by
  rcases reading with ⟨frames, awaited⟩
  have otherKind : forall {wanted : Token.Kind}, wanted ≠ .endOfInput -> token.kind ≠ wanted :=
    fun different same => different (same.symm.trans isEnd)
  cases awaited with
  | expression => simp [step, begin, isEnd]
  | operand => simp [step, begin, isEnd]
  | binder start => exact demand_ne_shift (otherKind (by decide)) _ _
  | arrow name start => exact demand_ne_shift (otherKind (by decide)) _ _
  | continuation finished closed => exact settle_ne_shift outer isEnd frames finished closed next

/-- An end token is like any other. -/
theorem settle_congr (outer : Nat) {other : Token} (isEnd : token.kind = .endOfInput)
    (otherEnd : other.kind = .endOfInput) (frames : List Frame) (e : Expr) (closed : Bool) :
    settle outer token frames e closed = settle outer other frames e closed := by
  have plain : ¬ token.kind.IsOperator := by
    rw [isEnd]
    decide
  have otherPlain : ¬ other.kind.IsOperator := by
    rw [otherEnd]
    decide
  induction frames generalizing e closed with
  | nil =>
      rw [settle, extendOr_of_unextended (unextended_of_plain plain _ _), settle,
        extendOr_of_unextended (unextended_of_plain otherPlain _ _), isEnd, otherEnd]
  | cons frame rest ih =>
      cases frame with
      | operand op start =>
          rw [settle, extendOr_of_unextended (unextended_of_plain plain _ _), ih, settle,
            extendOr_of_unextended (unextended_of_plain otherPlain _ _)]
      | rightOf op left start =>
          rw [settle, extendOr_of_unextended (unextended_of_plain plain _ _), ih, settle,
            extendOr_of_unextended (unextended_of_plain otherPlain _ _)]
      | alternate whole condition consequent start =>
          rw [settle, extendOr_of_unextended (unextended_of_plain plain _ _), ih, settle,
            extendOr_of_unextended (unextended_of_plain otherPlain _ _), isEnd, otherEnd]
      | _ =>
          rw [settle, extendOr_of_unextended (unextended_of_plain plain _ _), settle,
            extendOr_of_unextended (unextended_of_plain otherPlain _ _), demand, demand, isEnd, otherEnd]

theorem step_congr (outer : Nat) {other : Token} (isEnd : token.kind = .endOfInput)
    (otherEnd : other.kind = .endOfInput) (reading : Reading) :
    reading.step outer token = reading.step outer other := by
  rcases reading with ⟨frames, awaited⟩
  cases awaited with
  | expression => simp only [step, begin, isEnd, otherEnd]
  | operand => simp only [step, begin, isEnd, otherEnd]
  | binder start =>
      simp only [step, demand, isEnd, otherEnd]
      rfl
  | arrow name start => simp only [step, demand, isEnd, otherEnd]
  | continuation finished closed => exact settle_congr outer isEnd otherEnd frames finished closed

end Reading

namespace Parser

/-- What is accepted is accepted with any other end token. -/
theorem exists_read_concat (outer : Nat) {body : List Token} {finish other : Token}
    (isEnd : finish.kind = .endOfInput) (otherEnd : other.kind = .endOfInput) {reading : Reading}
    {e : Expr} {left : List Token} (accepted : read outer reading (body ++ [finish]) = .accepted e left) :
    exists otherLeft, read outer reading (body ++ [other]) = .accepted e otherLeft := by
  induction body generalizing reading with
  | nil =>
      rw [List.nil_append, read, Reading.step_congr outer isEnd otherEnd] at accepted
      rw [List.nil_append, read]
      cases effect : reading.step outer other with
      | shift next => exact absurd effect (Reading.step_ne_shift outer otherEnd reading next)
      | accept whole =>
          rw [effect] at accepted
          cases accepted
          exact ⟨_, rfl⟩
      | refuse fault consumed =>
          rw [effect] at accepted
          cases accepted
  | cons token rest ih =>
      rw [List.cons_append, read] at accepted ⊢
      cases effect : reading.step outer token with
      | shift next =>
          rw [effect] at accepted
          exact ih accepted
      | accept whole =>
          rw [effect] at accepted
          cases accepted
          exact ⟨_, rfl⟩
      | refuse fault consumed =>
          rw [effect] at accepted
          cases accepted

/-- A list of tokens with an end token decides the matter. -/
theorem read_ne_unfinished (outer : Nat) {tokens : List Token} {finish : Token} (listed : finish ∈ tokens)
    (isEnd : finish.kind = .endOfInput) (reading stuck : Reading) :
    read outer reading tokens ≠ .unfinished stuck := by
  induction tokens generalizing reading with
  | nil => cases listed
  | cons token rest ih =>
      rw [read]
      cases effect : reading.step outer token with
      | shift next =>
          rcases List.mem_cons.mp listed with rfl | later
          · exact absurd effect (Reading.step_ne_shift outer isEnd reading next)
          · exact ih later next
      | accept whole => exact fun stays => nomatch stays
      | refuse fault consumed => exact fun stays => nomatch stays

theorem program_eq_ok_iff {body : List Token} {finish : Token} (isEnd : finish.kind = .endOfInput)
    (e : Expr) : (ofTokens (body ++ [finish])).program.1 = .ok e ↔
      exists left, read 0 {} (body ++ [finish]) = .accepted e left := by
  have listed : finish ∈ body ++ [finish] := List.mem_append_right body List.mem_cons_self
  unfold program
  simp only [ofTokens, List.getLast?_concat]
  cases outcome : read 0 {} (body ++ [finish]) with
  | accepted program left => simp
  | refused diagnostic left stillOpen => simp
  | unfinished stuck => exact absurd outcome (read_ne_unfinished 0 listed isEnd {} stuck)

/-- A list of tokens with an end token is no program only if one of its tokens is refused. -/
theorem exists_refused {body : List Token} {finish : Token} (isEnd : finish.kind = .endOfInput)
    {failure : Failure} {parser : Parser}
    (failed : (ofTokens (body ++ [finish])).program = (.error failure, parser)) :
    exists diagnostic stillOpen, failure = .refused diagnostic ∧
      read 0 {} (body ++ [finish]) = .refused diagnostic parser.rest stillOpen := by
  have listed : finish ∈ body ++ [finish] := List.mem_append_right body List.mem_cons_self
  unfold program at failed
  simp only [ofTokens, List.getLast?_concat] at failed
  cases outcome : read 0 {} (body ++ [finish]) with
  | accepted program left =>
      rw [outcome] at failed
      cases failed
  | refused diagnostic left stillOpen =>
      rw [outcome] at failed
      cases failed
      exact ⟨diagnostic, stillOpen, rfl, rfl⟩
  | unfinished stuck => exact absurd outcome (read_ne_unfinished 0 listed isEnd {} stuck)

theorem program_concat_congr {body : List Token} {finish other : Token}
    (isEnd : finish.kind = .endOfInput) (otherEnd : other.kind = .endOfInput) {e : Expr}
    (accepted : (ofTokens (body ++ [finish])).program.1 = .ok e) :
    (ofTokens (body ++ [other])).program.1 = .ok e := by
  rcases (program_eq_ok_iff isEnd e).mp accepted with ⟨left, accepted⟩
  exact (program_eq_ok_iff otherEnd e).mpr (exists_read_concat 0 isEnd otherEnd accepted)

end Parser

/-! ## Programs -/

namespace Grammar

open Grammar.Tree

/-- The tokens of an accepted program, up to the end token, are the yield of a derivation tree
of the program.  In it `end` directly behind a conditional where no binding is open is taken
by the conditional, and an operator directly behind a conditional is kept from it by an `end`. -/
theorem exists_tree_of_program {body : List Token} {finish : Token}
    (isEnd : finish.kind = .endOfInput) (only : forall token, token ∈ body -> token.kind ≠ .endOfInput)
    {e : Expr} (accepted : (Parser.ofTokens (body ++ [finish])).program.1 = .ok e) :
    exists tree : Tree true .expression,
      tree.yield = body ∧ tree.expr = e ∧ tree.Each Greedy .endOfInput := by
  rcases (Parser.program_eq_ok_iff isEnd e).mp accepted with ⟨left, accepted⟩
  have start : Reads [] {} := .expression .nil rfl
  rcases read_sound start accepted with ⟨tree, front, behind, other, split, otherEnd, yields, derives, greedy⟩
  -- Both ways to cut the list cut it at its only end token.
  rcases List.append_eq_append_iff.mp split with ⟨more, rfl, suffix⟩ | ⟨more, rfl, suffix⟩
  · cases more with
    | nil => exact ⟨tree, by simpa using yields, derives, greedy⟩
    | cons token more => simp at suffix
  · cases more with
    | nil => exact ⟨tree, by simpa using yields, derives, greedy⟩
    | cons token more =>
        cases suffix
        exact absurd otherEnd (only other (List.mem_append_right front List.mem_cons_self))

/-- The tokens of `1 + if true then 2 else if false then 3 else 4 end * 5`.  The multiplication is
directly behind the outer conditional, whose last token is the `end` of the inner one. -/
def chainedTokens : List Token :=
  [⟨.number, "1", ⟨1, 0⟩⟩, ⟨.symbol .plus, "+", ⟨1, 2⟩⟩, ⟨.keyword .ifWord, "if", ⟨1, 4⟩⟩,
    ⟨.keyword .trueWord, "true", ⟨1, 7⟩⟩, ⟨.keyword .thenWord, "then", ⟨1, 12⟩⟩,
    ⟨.number, "2", ⟨1, 17⟩⟩, ⟨.keyword .elseWord, "else", ⟨1, 19⟩⟩,
    ⟨.keyword .ifWord, "if", ⟨1, 24⟩⟩, ⟨.keyword .falseWord, "false", ⟨1, 27⟩⟩,
    ⟨.keyword .thenWord, "then", ⟨1, 33⟩⟩, ⟨.number, "3", ⟨1, 38⟩⟩,
    ⟨.keyword .elseWord, "else", ⟨1, 40⟩⟩, ⟨.number, "4", ⟨1, 45⟩⟩,
    ⟨.keyword .endWord, "end", ⟨1, 47⟩⟩, ⟨.symbol .star, "*", ⟨1, 51⟩⟩, ⟨.number, "5", ⟨1, 53⟩⟩]

def chainedProgram : Expr :=
  .binary .add (.int 1 (some ⟨1, 0⟩))
    (.binary .mul
      (.ite (.bool true (some ⟨1, 7⟩)) (.int 2 (some ⟨1, 17⟩))
        (.ite (.bool false (some ⟨1, 27⟩)) (.int 3 (some ⟨1, 38⟩)) (.int 4 (some ⟨1, 45⟩))
          (some ⟨1, 24⟩))
        (some ⟨1, 4⟩))
      (.int 5 (some ⟨1, 53⟩)) (some ⟨1, 4⟩))
    (some ⟨1, 0⟩)

theorem exists_tree_of_chained :
    (Parser.ofTokens (chainedTokens ++ [Token.finish ⟨1, 54⟩])).program.1 = .ok chainedProgram ∧
      exists tree : Tree true .expression,
        tree.yield = chainedTokens ∧ tree.expr = chainedProgram ∧ tree.Each Greedy .endOfInput := by
  have accepted : (Parser.ofTokens (chainedTokens ++ [Token.finish ⟨1, 54⟩])).program.1 =
      .ok chainedProgram := by decide
  exact ⟨accepted, exists_tree_of_program rfl (by decide) accepted⟩

end Grammar

end Monotype
