import Monotype.Proofs.Grammar.Completeness

namespace Monotype

/-!
# A token is refused as early as possible

Whatever has been read without complaint is the beginning of a program.  Each open construct says
which tokens it still needs, and the constructs are completed from the inside out.  Conditionals are
left without an `end`, so an `end` that a binding needs comes where the binding is still open and no
conditional inside it takes it.

A reading does not look beyond the token that it refuses, so every list that starts like a refused
one up to this token is refused at the same token and for the same fault.
-/

def Keyword.token (word : Keyword) : Token :=
  ⟨.keyword word, word.spelling, .start⟩

def Symbol.token (sign : Symbol) : Token :=
  ⟨.symbol sign, sign.spelling, .start⟩

namespace Frame

/-- Tokens that complete a construct once the expression in its hole is complete. -/
def remainder : Frame -> List Token
  | operand _ _ => []
  | rightOf _ _ _ => []
  | paren => [Symbol.rightParen.token]
  | bound _ _ => [Keyword.inWord.token, Keyword.trueWord.token, Keyword.endWord.token]
  | body _ _ _ => [Keyword.endWord.token]
  | condition _ _ =>
      [Keyword.thenWord.token, Keyword.trueWord.token, Keyword.elseWord.token, Keyword.trueWord.token]
  | consequent _ _ _ => [Keyword.elseWord.token, Keyword.trueWord.token]
  | alternate _ _ _ _ => []

/-- Tokens that complete all constructs, from the inside out. -/
def remainders (frames : List Frame) : List Token :=
  frames.flatMap remainder

end Frame

theorem Frame.kind_ne_of_mem_remainders {frames : List Frame} {token : Token}
    (listed : token ∈ remainders frames) : token.kind ≠ .endOfInput := by
  rcases List.mem_flatMap.mp listed with ⟨frame, _, needed⟩
  have each : forall token, token ∈ frame.remainder -> token.kind ≠ .endOfInput := by
    cases frame <;> simp [remainder, Keyword.token, Symbol.token]
  exact each token needed

/-- Tokens that make a program of what has been read. -/
def Reading.completion : Reading -> List Token
  | ⟨frames, .expression⟩ => Keyword.trueWord.token :: Frame.remainders frames
  | ⟨frames, .operand⟩ => Keyword.trueWord.token :: Frame.remainders frames
  | ⟨frames, .binder start⟩ =>
      ⟨.identifier, "x", .start⟩ :: Symbol.assign.token :: Keyword.trueWord.token ::
        Frame.remainders (.bound "x" start :: frames)
  | ⟨frames, .arrow name start⟩ =>
      Symbol.assign.token :: Keyword.trueWord.token :: Frame.remainders (.bound name start :: frames)
  | ⟨frames, .continuation _ _⟩ => Frame.remainders frames

theorem Reading.kind_ne_of_mem_completion {reading : Reading} {token : Token}
    (listed : token ∈ reading.completion) : token.kind ≠ .endOfInput := by
  rcases reading with ⟨frames, awaited⟩
  cases awaited with
  | expression =>
      rcases List.mem_cons.mp listed with rfl | later
      · decide
      · exact Frame.kind_ne_of_mem_remainders later
  | operand =>
      rcases List.mem_cons.mp listed with rfl | later
      · decide
      · exact Frame.kind_ne_of_mem_remainders later
  | binder start =>
      simp only [completion, List.mem_cons] at listed
      rcases listed with rfl | rfl | rfl | later
      · decide
      · decide
      · decide
      · exact Frame.kind_ne_of_mem_remainders later
  | arrow name start =>
      simp only [completion, List.mem_cons] at listed
      rcases listed with rfl | rfl | later
      · decide
      · decide
      · exact Frame.kind_ne_of_mem_remainders later
  | continuation e closed => exact Frame.kind_ne_of_mem_remainders listed

namespace Parser

variable {outer : Nat} {frames : List Frame} {finish : Token}

/-! ## Completing what is open -/

theorem read_truth (outer : Nat) (frames : List Frame) (whole : Bool) (rest : List Token) :
    read outer ⟨frames, .start whole⟩ (Keyword.trueWord.token :: rest) =
      read outer ⟨frames, .continuation (.bool true (some .start)) false⟩ rest := by
  apply read_of_shift
  rw [Reading.step_start]
  rfl

/-- A word that is wanted behind a complete expression, whether or not operators may extend it. -/
theorem read_wanted {wanted : Token.Kind} (word : Token.Of wanted) (plain : ¬ wanted.IsOperator)
    {e : Expr} {next : Reading} (settles : Reading.settle outer word.val frames e false =
      Reading.extendOr word.val frames e false (fun _ => Reading.demand wanted word.val next))
    (closed : Bool) (rest : List Token) :
    read outer ⟨frames, .continuation e closed⟩ (word.val :: rest) = read outer next rest := by
  have plainWord : ¬ word.val.kind.IsOperator := by rwa [word.property]
  rw [read_closed plainWord, read_word word plain settles]

section Leaving

variable {next : Token} (plain : ¬ next.kind.IsOperator)
  (kept : next.kind = .keyword .endWord -> Frame.openBindings outer frames ≠ 0)

include plain kept

theorem read_consequent (whole : Bool) (condition : Expr) (start : Position) (e : Expr)
    (closed : Bool) (rest : List Token) :
    read outer ⟨.consequent whole condition start :: frames, .continuation e closed⟩
        (Keyword.elseWord.token :: Keyword.trueWord.token :: next :: rest) =
      read outer ⟨frames, .continuation (.ite condition e (.bool true (some .start)) (some start)) whole⟩
        (next :: rest) :=
  calc _ = read outer ⟨.alternate whole condition e start :: frames, .start true⟩
        (Keyword.trueWord.token :: next :: rest) :=
      read_wanted ⟨Keyword.elseWord.token, rfl⟩ (by decide) rfl closed _
    _ = _ := read_truth outer _ true _
    _ = _ := read_alternate plain kept whole condition e start _ false rest

/-- The tokens that a construct needs complete it, if no operator follows and no `end` that a
conditional could take. -/
theorem exists_read_remainder (frame : Frame) (e : Expr) (closed : Bool) (rest : List Token) :
    exists whole stays, read outer ⟨frame :: frames, .continuation e closed⟩
        (frame.remainder ++ next :: rest) =
      read outer ⟨frames, .continuation whole stays⟩ (next :: rest) := by
  have unextended := Reading.unextended_of_plain plain (frame :: frames) closed
  cases frame with
  | operand op start => exact ⟨_, false, read_leave rfl unextended (by rw [Reading.settle]) rest⟩
  | rightOf op left start => exact ⟨_, false, read_leave rfl unextended (by rw [Reading.settle]) rest⟩
  | paren =>
      exact ⟨e, false, read_wanted ⟨Symbol.rightParen.token, rfl⟩ (by decide) rfl closed _⟩
  | bound name start =>
      refine ⟨.letIn name e (.bool true (some .start)) (some start), false, ?_⟩
      calc read outer ⟨.bound name start :: frames, .continuation e closed⟩ (Keyword.inWord.token ::
              Keyword.trueWord.token :: Keyword.endWord.token :: next :: rest)
          = read outer ⟨.body name e start :: frames, .start true⟩
              (Keyword.trueWord.token :: Keyword.endWord.token :: next :: rest) :=
            read_wanted ⟨Keyword.inWord.token, rfl⟩ (by decide) rfl closed _
        _ = _ := read_truth outer _ true _
        _ = _ := read_wanted ⟨Keyword.endWord.token, rfl⟩ (by decide) rfl false _
  | body name bound start =>
      exact ⟨.letIn name bound e (some start), false,
        read_wanted ⟨Keyword.endWord.token, rfl⟩ (by decide) rfl closed _⟩
  | condition whole start =>
      refine ⟨.ite e (.bool true (some .start)) (.bool true (some .start)) (some start), whole, ?_⟩
      calc read outer ⟨.condition whole start :: frames, .continuation e closed⟩
              (Keyword.thenWord.token :: Keyword.trueWord.token :: Keyword.elseWord.token ::
                Keyword.trueWord.token :: next :: rest)
          = read outer ⟨.consequent whole e start :: frames, .start true⟩ (Keyword.trueWord.token ::
              Keyword.elseWord.token :: Keyword.trueWord.token :: next :: rest) :=
            read_wanted ⟨Keyword.thenWord.token, rfl⟩ (by decide) rfl closed _
        _ = _ := read_truth outer _ true _
        _ = _ := read_consequent plain kept whole e start _ false rest
  | consequent whole condition start =>
      exact ⟨_, whole, read_consequent plain kept whole condition start e closed rest⟩
  | alternate whole condition consequent start =>
      exact ⟨_, whole, read_alternate plain kept whole condition consequent start e closed rest⟩

end Leaving

/-- What comes first when all constructs are completed: no operator, and an `end` only for a
binding. -/
theorem exists_cons_remainders (outer : Nat) (isEnd : finish.kind = .endOfInput) (frames : List Frame) :
    exists next rest, Frame.remainders frames ++ [finish] = next :: rest ∧ ¬ next.kind.IsOperator ∧
      (next.kind = .keyword .endWord -> Frame.openBindings outer frames ≠ 0) := by
  induction frames with
  | nil =>
      refine ⟨finish, [], rfl, ?_, ?_⟩
      · rw [isEnd]
        decide
      · rw [isEnd]
        intro isWord
        cases isWord
  | cons frame frames ih =>
      -- A frame that needs no tokens is no binding, so that what comes first stays the same.
      have passed (bare : frame.remainder = []) (plain : frame.isBinding = false) :
          exists next rest, Frame.remainders (frame :: frames) ++ [finish] = next :: rest ∧
            ¬ next.kind.IsOperator ∧ (next.kind = .keyword .endWord ->
              Frame.openBindings outer (frame :: frames) ≠ 0) := by
        rw [Frame.remainders, List.flatMap_cons, bare, List.nil_append,
          Frame.openBindings_cons outer frames plain]
        exact ih
      cases frame with
      | operand op start => exact passed rfl rfl
      | rightOf op left start => exact passed rfl rfl
      | paren => exact ⟨_, _, rfl, by decide, fun isWord => by cases isWord⟩
      | bound name start => exact ⟨_, _, rfl, by decide, fun isWord => by cases isWord⟩
      | body name bound start =>
          exact ⟨_, _, rfl, by decide, fun _ => Frame.openBindings_cons_ne_zero outer frames rfl⟩
      | condition whole start => exact ⟨_, _, rfl, by decide, fun isWord => by cases isWord⟩
      | consequent whole condition start =>
          exact ⟨_, _, rfl, by decide, fun isWord => by cases isWord⟩
      | alternate whole condition consequent start => exact passed rfl rfl

theorem exists_read_remainders (outer : Nat) (isEnd : finish.kind = .endOfInput) (frames : List Frame)
    (e : Expr) (closed : Bool) : exists program left,
      read outer ⟨frames, .continuation e closed⟩ (Frame.remainders frames ++ [finish]) =
        .accepted program left := by
  induction frames generalizing e closed with
  | nil => exact ⟨e, [finish], read_finish outer isEnd e closed⟩
  | cons frame frames ih =>
      rcases exists_cons_remainders outer isEnd frames with ⟨next, rest, split, plain, kept⟩
      rcases exists_read_remainder plain kept frame e closed rest with ⟨whole, stays, same⟩
      rcases ih whole stays with ⟨program, left, accepted⟩
      refine ⟨program, left, ?_⟩
      rw [Frame.remainders, List.flatMap_cons, List.append_assoc]
      change read outer _ (frame.remainder ++ (Frame.remainders frames ++ [finish])) = _
      rw [split, same, ← split, accepted]

theorem exists_read_truth (outer : Nat) (isEnd : finish.kind = .endOfInput) (frames : List Frame)
    (whole : Bool) : exists program left, read outer ⟨frames, .start whole⟩
      (Keyword.trueWord.token :: Frame.remainders frames ++ [finish]) = .accepted program left := by
  rw [List.cons_append, read_truth]
  exact exists_read_remainders outer isEnd frames _ _

/-- Every reading can be completed. -/
theorem exists_read_completion (outer : Nat) (isEnd : finish.kind = .endOfInput) (reading : Reading) :
    exists program left, read outer reading (reading.completion ++ [finish]) = .accepted program left := by
  rcases reading with ⟨frames, awaited⟩
  cases awaited with
  | expression => exact exists_read_truth outer isEnd frames true
  | operand => exact exists_read_truth outer isEnd frames false
  -- The name and the arrow lead to a bound expression whatever the frames, by computation.
  | binder start => exact exists_read_truth outer isEnd (.bound "x" start :: frames) true
  | arrow name start => exact exists_read_truth outer isEnd (.bound name start :: frames) true
  | continuation e closed => exact exists_read_remainders outer isEnd frames e closed

/-! ## The refused token -/

/-- A reading that ends with a refusal has passed the tokens in front of the refused one, whatever
comes after them. -/
theorem exists_reached {reading : Reading} {tokens rest : List Token} {diagnostic : Diagnostic}
    {stillOpen : Nat} (refused : read outer reading tokens = .refused diagnostic rest stillOpen) :
    exists front token after reached fault consumed, tokens = front ++ token :: after ∧
      (forall more, read outer reading (front ++ more) = read outer reached more) ∧
      reached.step outer token = .refuse fault consumed ∧ diagnostic = ⟨fault, token.position⟩ ∧
      rest = if consumed then after else token :: after := by
  induction tokens generalizing reading with
  | nil => cases refused
  | cons token after ih =>
      rw [read] at refused
      cases effect : reading.step outer token with
      | shift next =>
          rw [effect] at refused
          rcases ih refused with ⟨front, found, behind, reached, fault, consumed, split, passes, others⟩
          refine ⟨token :: front, found, behind, reached, fault, consumed, ?_, ?_, others⟩
          · rw [split, List.cons_append]
          · intro more
            rw [List.cons_append, read_of_shift effect, passes]
      | accept program =>
          rw [effect] at refused
          cases refused
      | refuse fault consumed =>
          rw [effect] at refused
          cases refused
          exact ⟨[], token, after, reading, fault, consumed, rfl, fun _ => rfl, effect, rfl, rfl⟩

end Parser

namespace Reading

variable {outer : Nat} {token : Token} {fault : Fault}

theorem demand_ne_consumed (wanted : Token.Kind) (token : Token) (next : Reading) (fault : Fault) :
    demand wanted token next ≠ .refuse fault true := by
  rw [demand]
  split
  · intro same
    cases same
  · intro same
    cases same

theorem extendOr_ne_consumed {frames : List Frame} {e : Expr} {closed : Bool} {otherwise : Unit -> Step}
    (others : otherwise () ≠ .refuse fault true) :
    extendOr token frames e closed otherwise ≠ .refuse fault true := by
  rw [extendOr]
  split
  · intro same
    cases same
  · exact others

theorem settle_ne_consumed (outer : Nat) (token : Token) (fault : Fault) (frames : List Frame) (e : Expr)
    (closed : Bool) : settle outer token frames e closed ≠ .refuse fault true := by
  induction frames generalizing e closed with
  | nil =>
      rw [settle]
      apply extendOr_ne_consumed
      split
      · intro same
        cases same
      · intro same
        cases same
  | cons frame rest ih =>
      cases frame with
      | operand op start =>
          rw [settle]
          exact extendOr_ne_consumed (ih _ _)
      | rightOf op left start =>
          rw [settle]
          exact extendOr_ne_consumed (ih _ _)
      | alternate whole condition consequent start =>
          rw [settle]
          apply extendOr_ne_consumed
          split
          · intro same
            cases same
          · exact ih _ _
      | _ =>
          rw [settle]
          exact extendOr_ne_consumed (demand_ne_consumed _ _ _ _)

theorem begin_of_consumed {frames : List Frame} {whole : Bool}
    (refuses : begin token frames whole = .refuse fault true) :
    token.kind = .number ∧ Numeral.value? token.text = none := by
  unfold begin at refuses
  split at refuses
  · rename_i isNumber
    split at refuses
    · cases refuses
    · rename_i noLiteral
      exact ⟨isNumber, noLiteral⟩
  all_goals cases refuses

/-- Only a numeral that is no literal is consumed when it is refused. -/
theorem noLiteral_of_consumed {reading : Reading}
    (refuses : reading.step outer token = .refuse fault true) :
    token.kind = .number ∧ Numeral.value? token.text = none := by
  rcases reading with ⟨frames, awaited⟩
  cases awaited with
  | expression => exact begin_of_consumed refuses
  | operand => exact begin_of_consumed refuses
  | binder start => exact absurd refuses (demand_ne_consumed _ _ _ _)
  | arrow name start => exact absurd refuses (demand_ne_consumed _ _ _ _)
  | continuation e closed => exact absurd refuses (settle_ne_consumed outer token fault frames e closed)

end Reading

namespace Parser

/-- The tokens end with an end token. -/
def Ends (tokens : List Token) : Prop :=
  exists front finish, tokens = front ++ [finish] ∧ finish.kind = .endOfInput

/-- Every number is a literal. -/
def Literals (tokens : List Token) : Prop :=
  forall token, token ∈ tokens -> token.kind = .number -> (Numeral.value? token.text).isSome = true

/-- A program is wanted and the token with the index is refused for the fault: it is the first
one that is left, and its place is reported. -/
def RefusedAt (tokens : List Token) (index : Nat) (fault : Fault) : Prop :=
  exists token parser, tokens[index]? = some token ∧ parser.rest = tokens.drop index ∧
    (ofTokens tokens).program = (.error (.refused ⟨fault, token.position⟩), parser)

/-- The tokens in front of the one with the index lead to a reading that refuses this token. -/
def StopsAt (tokens : List Token) (index : Nat) (fault : Fault) (reached : Reading) : Prop :=
  exists token, tokens[index]? = some token ∧ reached.step 0 token = .refuse fault false ∧
    forall more, read 0 {} (tokens.take index ++ more) = read 0 reached more

variable {tokens rest : List Token} {index : Nat} {fault : Fault} {reached : Reading}

theorem exists_program_of_refused {diagnostic : Diagnostic} {stillOpen : Nat} (nonempty : tokens ≠ [])
    (refused : read 0 {} tokens = .refused diagnostic rest stillOpen) :
    exists parser, parser.rest = rest ∧ (ofTokens tokens).program = (.error (.refused diagnostic), parser) := by
  refine ⟨⟨rest, tokens.getLast?, stillOpen⟩, rfl, ?_⟩
  unfold program
  simp only [ofTokens, List.getLast?_eq_some_getLast nonempty, refused]

theorem StopsAt.refusedAt (stops : StopsAt tokens index fault reached) : RefusedAt tokens index fault := by
  rcases stops with ⟨token, found, refuses, passes⟩
  rcases List.getElem?_eq_some_iff.mp found with ⟨inside, here⟩
  have behind : tokens.drop index = token :: tokens.drop (index + 1) := by
    rw [List.drop_eq_getElem_cons inside, here]
  have refused : read 0 {} tokens =
      .refused ⟨fault, token.position⟩ (tokens.drop index) (Frame.openBindings 0 reached.frames) := by
    have passed := passes (tokens.drop index)
    rw [List.take_append_drop] at passed
    rw [passed, behind, read, refuses]
    rfl
  rcases exists_program_of_refused (List.ne_nil_of_length_pos (Nat.zero_lt_of_lt inside)) refused with
    ⟨parser, left, program⟩
  exact ⟨token, parser, found, left, program⟩

theorem exists_stopsAt {diagnostic : Diagnostic} {stillOpen : Nat} (literals : Literals tokens)
    (refused : read 0 {} tokens = .refused diagnostic rest stillOpen) :
    exists index fault reached, StopsAt tokens index fault reached ∧ index < tokens.length ∧
      rest = tokens.drop index ∧ diagnostic.fault = fault := by
  rcases exists_reached refused with
    ⟨front, token, after, reached, fault, consumed, rfl, passes, refuses, rfl, rfl⟩
  have unconsumed : consumed = false := by
    cases consumed with
    | false => rfl
    | true =>
        rcases Reading.noLiteral_of_consumed refuses with ⟨isNumber, noLiteral⟩
        have literal := literals token (List.mem_append_right front List.mem_cons_self) isNumber
        rw [noLiteral] at literal
        cases literal
  subst unconsumed
  refine ⟨front.length, fault, reached, ⟨token, ?_, refuses, ?_⟩, ?_, ?_, rfl⟩
  · simp
  · rwa [List.take_left]
  · simp
  · rw [List.drop_left]
    rfl

theorem RefusedAt.exists_stopsAt (ends : Ends tokens) (literals : Literals tokens)
    (refused : RefusedAt tokens index fault) : exists reached, StopsAt tokens index fault reached := by
  rcases refused with ⟨token, parser, found, left, failed⟩
  rcases ends with ⟨front, finish, rfl, isEnd⟩
  rcases exists_refused isEnd failed with ⟨diagnostic, stillOpen, same, refused⟩
  rcases Parser.exists_stopsAt literals refused with ⟨stop, _, reached, stops, inside, rest, rfl⟩
  cases same
  rcases List.getElem?_eq_some_iff.mp found with ⟨indexed, _⟩
  -- As many tokens are left from the one index as from the other.
  have sameLeft := congrArg List.length (left.symm.trans rest)
  rw [List.length_drop, List.length_drop] at sameLeft
  have same : stop = index := by omega
  subst same
  exact ⟨reached, stops⟩

theorem StopsAt.of_take_eq (stops : StopsAt tokens index fault reached) {other : List Token}
    (same : other.take (index + 1) = tokens.take (index + 1)) : StopsAt other index fault reached := by
  rcases stops with ⟨token, found, refuses, passes⟩
  refine ⟨token, ?_, refuses, ?_⟩
  · rw [← List.getElem?_take_of_succ, same, List.getElem?_take_of_succ, found]
  · have sameFront := congrArg (List.take index) same
    rw [List.take_take, List.take_take, Nat.min_eq_left (Nat.le_succ index)] at sameFront
    rwa [sameFront]

/-- A list of tokens with an end token, all of whose numbers are literals, is no program only if one
of its tokens is refused.  The tokens in front of it are the beginning of a program, and each list
that begins with them and the refused token is refused at the same token and for the same fault. -/
theorem viable_of_refusedAt (tokens : List Token) (ends : Ends tokens) (literals : Literals tokens) :
    (forall failure, (ofTokens tokens).program.1 = .error failure ->
      exists index fault, RefusedAt tokens index fault) ∧
    forall index fault, RefusedAt tokens index fault ->
      (exists further finish program, (forall token, token ∈ further -> token.kind ≠ .endOfInput) ∧
        finish.kind = .endOfInput ∧
        (ofTokens (tokens.take index ++ further ++ [finish])).program.1 = .ok program) ∧
      forall other : List Token, other.take (index + 1) = tokens.take (index + 1) ->
        RefusedAt other index fault := by
  constructor
  · intro failure failed
    rcases ends with ⟨front, finish, rfl, isEnd⟩
    rcases exists_refused isEnd (Prod.ext failed rfl) with ⟨diagnostic, stillOpen, _, refused⟩
    rcases exists_stopsAt literals refused with ⟨index, fault, reached, stops, _⟩
    exact ⟨index, fault, stops.refusedAt⟩
  · intro index fault refused
    rcases refused.exists_stopsAt ends literals with ⟨reached, stops⟩
    refine ⟨?_, fun other same => (stops.of_take_eq same).refusedAt⟩
    have isEnd : (Token.finish .start).kind = .endOfInput := rfl
    rcases exists_read_completion 0 isEnd reached with ⟨program, left, accepted⟩
    refine ⟨reached.completion, _, program, fun _ => Reading.kind_ne_of_mem_completion, isEnd, ?_⟩
    rcases stops with ⟨_, _, _, passes⟩
    apply (program_eq_ok_iff isEnd program).mpr
    exact ⟨left, by rw [List.append_assoc, passes, accepted]⟩

/-- The tokens of `let x <- if true then (1 in`. -/
def unclosedTokens : List Token :=
  [Keyword.letWord.token, ⟨.identifier, "x", .start⟩, Symbol.assign.token, Keyword.ifWord.token,
    Keyword.trueWord.token, Keyword.thenWord.token, Symbol.leftParen.token, ⟨.number, "1", .start⟩,
    Keyword.inWord.token, .finish .start]

theorem viable_of_unclosed : Ends unclosedTokens ∧ Literals unclosedTokens ∧
    RefusedAt unclosedTokens 8 (.expected (.symbol .rightParen) (.keyword .inWord)) ∧
    exists further finish program, (forall token, token ∈ further -> token.kind ≠ .endOfInput) ∧
      finish.kind = .endOfInput ∧
      (ofTokens (unclosedTokens.take 8 ++ further ++ [finish])).program.1 = .ok program := by
  have ends : Ends unclosedTokens := ⟨unclosedTokens.take 9, .finish .start, rfl, rfl⟩
  have literals : Literals unclosedTokens := by
    unfold Literals
    decide
  have refused : RefusedAt unclosedTokens 8 (.expected (.symbol .rightParen) (.keyword .inWord)) :=
    ⟨Keyword.inWord.token, _, rfl, rfl, rfl⟩
  exact ⟨ends, literals, refused, ((viable_of_refusedAt unclosedTokens ends literals).2 8 _ refused).1⟩

end Parser
end Monotype
