import Monotype.Proofs.Viability
import Monotype.Proofs.Check

namespace Monotype

/-!
# Reading comes to an end

Each kind of token plays one part in an expression, and this part alone says what the token can do to
a reading.  A token that plays no part which opens a construct can be read again and again only while
it closes constructs, and these are finitely many.  A token that opens a construct can be read for
ever.  So a list of tokens without an end token may never come to an end, if its last token is taken
to be repeated; when it does not is known after a few repetitions.

An end token opens nothing and is never passed.  A list of tokens that ends with one is a program or
one of its tokens is refused, wherever reading starts and however many bindings are open.
-/

/-! ## The parts that tokens play -/

namespace Token

/-- The part that a token plays in an expression. -/
inductive Part where
  | opening | leaf | binding | arrow | operator | separator | closing | finish

def Kind.part : Kind -> Part
  | .number => .leaf
  | .identifier => .leaf
  | .keyword .trueWord => .leaf
  | .keyword .falseWord => .leaf
  | .keyword .notWord => .opening
  | .keyword .ifWord => .opening
  | .keyword .letWord => .binding
  | .keyword .inWord => .separator
  | .keyword .thenWord => .separator
  | .keyword .elseWord => .separator
  | .keyword .endWord => .closing
  | .keyword .andWord => .operator
  | .keyword .orWord => .operator
  | .symbol .assign => .arrow
  | .symbol .tilde => .opening
  | .symbol .leftParen => .opening
  | .symbol .rightParen => .closing
  | .symbol _ => .operator
  | .endOfInput => .finish

theorem Kind.IsOperator.part_eq {kind : Kind} (isOperator : kind.IsOperator) : kind.part = .operator := by
  rcases isOperator with ⟨op, rfl⟩
  cases op <;> rfl

end Token

namespace Reading

open Token

/-- What a token of a kind can do where an expression or an operand begins. -/
inductive Begun (kind : Token.Kind) (frames : List Frame) : Step -> Prop where
  | opens (frame : Frame) (whole : Bool) (isOpening : kind.part = .opening) :
      Begun kind frames (.shift ⟨frame :: frames, .start whole⟩)
  | leaf {e : Expr} (isLeaf : kind.part = .leaf) : Begun kind frames (.shift ⟨frames, .continuation e false⟩)
  | binds {start : Position} (isBinding : kind.part = .binding) :
      Begun kind frames (.shift ⟨frames, .binder start⟩)
  | refuses {fault : Fault} {consumed : Bool} (noOpening : kind.part ≠ .opening) :
      Begun kind frames (.refuse fault consumed)

/-- What a token of a kind can do behind a complete expression. -/
inductive Settled (kind : Token.Kind) (frames : List Frame) : Step -> Prop where
  | grows {next : List Frame} (isOperator : kind.part = .operator) :
      Settled kind frames (.shift ⟨next, .start false⟩)
  | continues {next : List Frame} (isSeparator : kind.part = .separator) :
      Settled kind frames (.shift ⟨next, .start true⟩)
  | closes {next : List Frame} {e : Expr} {closed : Bool} (isClosing : kind.part = .closing)
      (fewer : next.length < frames.length) : Settled kind frames (.shift ⟨next, .continuation e closed⟩)
  | accepts {e : Expr} (isEnd : kind = .endOfInput) : Settled kind frames (.accept e)
  | refuses {fault : Fault} : Settled kind frames (.refuse fault false)

variable {outer : Nat} {token : Token} {frames : List Frame}

theorem begun (token : Token) (frames : List Frame) (whole : Bool) :
    Begun token.kind frames (begin token frames whole) := by
  unfold begin
  split
  · rename_i isNumber
    split
    · exact .leaf (congrArg Kind.part isNumber)
    · refine .refuses (fun isOpening => ?_)
      rw [isNumber] at isOpening
      cases isOpening
  · rename_i isName
    exact .leaf (congrArg Kind.part isName)
  · rename_i isTrue
    exact .leaf (congrArg Kind.part isTrue)
  · rename_i isFalse
    exact .leaf (congrArg Kind.part isFalse)
  · rename_i isNot
    exact .opens _ false (congrArg Kind.part isNot)
  · rename_i isLet
    exact .binds (congrArg Kind.part isLet)
  · rename_i isIf
    exact .opens _ true (congrArg Kind.part isIf)
  · rename_i isTilde
    exact .opens _ false (congrArg Kind.part isTilde)
  · rename_i isLeft
    exact .opens _ true (congrArg Kind.part isLeft)
  · -- Every kind of token that opens a construct has had its case.
    refine .refuses (fun isOpening => ?_)
    cases isKind : token.kind with
    | keyword word => cases word <;> simp_all [Kind.part]
    | symbol sign => cases sign <;> simp_all [Kind.part]
    | _ => simp_all [Kind.part]

theorem extendOr_settled {e : Expr} {closed : Bool} {otherwise : Unit -> Step}
    (others : Settled token.kind frames (otherwise ())) :
    Settled token.kind frames (extendOr token frames e closed otherwise) := by
  unfold extendOr extend?
  cases found : BinaryOp.ofKind? token.kind with
  | none => exact others
  | some op =>
      have isOperator : token.kind.IsOperator := ⟨op, (BinaryOp.ofKind?_eq_some_iff _ op).mp found⟩
      by_cases extended : closed = false ∧ Frame.floor frames ≤ op.level
      · simp only [extended, and_self, if_true]
        exact .grows isOperator.part_eq
      · simp only [extended, if_false]
        exact others

theorem demand_settled {wanted : Token.Kind} {next : Reading}
    (fits : token.kind = wanted -> Settled token.kind frames (.shift next)) :
    Settled token.kind frames (demand wanted token next) := by
  unfold demand
  split
  · next same => exact fits same
  · exact .refuses

theorem Settled.outside {kind : Token.Kind} {frame : Frame} {step : Step}
    (settled : Settled kind frames step) : Settled kind (frame :: frames) step := by
  cases settled with
  | grows isOperator => exact .grows isOperator
  | continues isSeparator => exact .continues isSeparator
  | closes isClosing fewer => exact .closes isClosing (Nat.lt_succ_of_lt fewer)
  | accepts isEnd => exact .accepts isEnd
  | refuses => exact .refuses

/-- The frames are left from the inside out, so what closes one of them leaves fewer. -/
theorem settled (outer : Nat) (token : Token) (frames : List Frame) (e : Expr) (closed : Bool) :
    Settled token.kind frames (settle outer token frames e closed) := by
  induction frames generalizing e closed with
  | nil =>
      rw [settle]
      apply extendOr_settled
      split
      · next isEnd => exact .accepts isEnd
      · exact .refuses
  | cons frame rest ih =>
      have shorter : rest.length < (frame :: rest).length := Nat.lt_succ_self _
      cases frame with
      | operand op start =>
          rw [settle]
          exact extendOr_settled (ih _ _).outside
      | rightOf op left start =>
          rw [settle]
          exact extendOr_settled (ih _ _).outside
      | paren =>
          rw [settle]
          exact extendOr_settled (demand_settled (fun isRight => .closes (congrArg Kind.part isRight) shorter))
      | bound name start =>
          rw [settle]
          exact extendOr_settled (demand_settled (fun isIn => .continues (congrArg Kind.part isIn)))
      | body name bound start =>
          rw [settle]
          exact extendOr_settled (demand_settled (fun isEnd => .closes (congrArg Kind.part isEnd) shorter))
      | condition whole start =>
          rw [settle]
          exact extendOr_settled (demand_settled (fun isThen => .continues (congrArg Kind.part isThen)))
      | consequent whole condition start =>
          rw [settle]
          exact extendOr_settled (demand_settled (fun isElse => .continues (congrArg Kind.part isElse)))
      | alternate whole condition consequent start =>
          rw [settle]
          apply extendOr_settled
          split
          · next closes => exact .closes (congrArg Kind.part closes.2) shorter
          · exact (ih _ _).outside

/-! ## Tokens that are repeated -/

theorem shift_of_demand {wanted : Token.Kind} {reading next : Reading}
    (shifts : demand wanted token reading = .shift next) : token.kind = wanted ∧ reading = next := by
  unfold demand at shifts
  split at shifts
  · next same => exact ⟨same, Step.shift.inj shifts⟩
  · cases shifts

/-- Where an expression or an operand begins, no other tokens are read. -/
theorem Begun.part_of_shift {kind : Token.Kind} {next : Reading} (begun : Begun kind frames (.shift next)) :
    kind.part = .opening ∨ kind.part = .leaf ∨ kind.part = .binding := by
  cases begun with
  | opens frame whole isOpening => exact Or.inl isOpening
  | leaf isLeaf => exact Or.inr (Or.inl isLeaf)
  | binds isBinding => exact Or.inr (Or.inr isBinding)

/-- Behind a complete expression, no other tokens are read. -/
theorem Settled.part_of_shift {kind : Token.Kind} {next : Reading}
    (settled : Settled kind frames (.shift next)) :
    kind.part = .operator ∨ kind.part = .separator ∨ kind.part = .closing := by
  cases settled with
  | grows isOperator => exact Or.inl isOperator
  | continues isSeparator => exact Or.inr (Or.inl isSeparator)
  | closes isClosing fewer => exact Or.inr (Or.inr isClosing)

theorem begun_of_shift (whole : Bool) {next : Reading}
    (shifts : step outer ⟨frames, .start whole⟩ token = .shift next) :
    Begun token.kind frames (.shift next) := by
  rw [step_start] at shifts
  exact shifts ▸ begun token frames whole

theorem settled_of_shift {e : Expr} {closed : Bool} {next : Reading}
    (shifts : step outer ⟨frames, .continuation e closed⟩ token = .shift next) :
    Settled token.kind frames (.shift next) :=
  shifts ▸ settled outer token frames e closed

theorem shifts_once_of_begun {next : Reading} (noOpening : token.kind.part ≠ .opening)
    (begun : Begun token.kind frames (.shift next)) (further : Reading) :
    next.step outer token ≠ .shift further := by
  intro again
  cases begun with
  | opens frame whole isOpening => exact noOpening isOpening
  | leaf isLeaf =>
      rcases (settled_of_shift again).part_of_shift with other | other | other <;>
        cases isLeaf.symm.trans other
  | binds isBinding =>
      rcases shift_of_demand again with ⟨isName, _⟩
      cases isBinding.symm.trans (congrArg Kind.part isName)

/-- A token that opens no construct is read a second time only if it has left one the first time. -/
theorem shifts_once_or_leaves {reading next : Reading} (noOpening : token.kind.part ≠ .opening)
    (shifts : reading.step outer token = .shift next) :
    (forall further, next.step outer token ≠ .shift further) ∨
      next.frames.length < reading.frames.length := by
  rcases reading with ⟨frames, awaited⟩
  cases awaited with
  | expression =>
      have begun := begun_of_shift true shifts
      exact Or.inl (shifts_once_of_begun noOpening begun)
  | operand =>
      have begun := begun_of_shift false shifts
      exact Or.inl (shifts_once_of_begun noOpening begun)
  | binder start =>
      rcases shift_of_demand shifts with ⟨isName, rfl⟩
      refine Or.inl (fun further again => ?_)
      rcases shift_of_demand again with ⟨isArrow, _⟩
      cases isName.symm.trans isArrow
  | arrow name start =>
      rcases shift_of_demand shifts with ⟨isArrow, rfl⟩
      refine Or.inl (fun further again => ?_)
      have begun := begun_of_shift true again
      rw [isArrow] at begun
      rcases begun.part_of_shift with other | other | other <;> cases other
  | continuation e closed =>
      have settled := settled_of_shift shifts
      cases settled with
      | grows isOperator =>
          refine Or.inl (fun further again => ?_)
          rcases (begun_of_shift _ again).part_of_shift with other | other | other <;>
            cases isOperator.symm.trans other
      | continues isSeparator =>
          refine Or.inl (fun further again => ?_)
          rcases (begun_of_shift _ again).part_of_shift with other | other | other <;>
            cases isSeparator.symm.trans other
      | closes isClosing fewer => exact Or.inr fewer

/-- A token that opens a construct is read where one may begin, and there another may begin. -/
theorem exists_shift_of_opening (isOpening : token.kind.part = .opening) (outer : Nat) (frames : List Frame)
    (whole : Bool) : exists more inside,
      step outer ⟨frames, .start whole⟩ token = .shift ⟨more, .start inside⟩ := by
  have possible := begun token frames whole
  rw [step_start]
  cases effect : begin token frames whole with
  | shift next =>
      rw [effect] at possible
      cases possible with
      | opens frame inside => exact ⟨_, inside, rfl⟩
      | leaf isLeaf => cases isOpening.symm.trans isLeaf
      | binds isBinding => cases isOpening.symm.trans isBinding
  | accept e =>
      rw [effect] at possible
      cases possible
  | refuse fault consumed =>
      rw [effect] at possible
      cases possible with
      | refuses noOpening => exact absurd isOpening noOpening

theorem exists_start_of_opening {reading next : Reading} (isOpening : token.kind.part = .opening)
    (shifts : reading.step outer token = .shift next) : exists whole, reading.awaited = .start whole := by
  rcases reading with ⟨frames, awaited⟩
  cases awaited with
  | expression => exact ⟨true, rfl⟩
  | operand => exact ⟨false, rfl⟩
  | binder start =>
      rcases shift_of_demand shifts with ⟨isName, _⟩
      cases isOpening.symm.trans (congrArg Kind.part isName)
  | arrow name start =>
      rcases shift_of_demand shifts with ⟨isArrow, _⟩
      cases isOpening.symm.trans (congrArg Kind.part isArrow)
  | continuation e closed =>
      rcases (settled_of_shift shifts).part_of_shift with other | other | other <;>
        cases isOpening.symm.trans other

end Reading

namespace Parser

variable {outer : Nat} {reading stuck : Reading} {token : Token}

theorem read_cons_eq_unfinished_iff (rest : List Token) :
    read outer reading (token :: rest) = .unfinished stuck ↔
      exists next, reading.step outer token = .shift next ∧ read outer next rest = .unfinished stuck := by
  rw [read]
  cases reading.step outer token with
  | shift next => simp
  | accept e => simp
  | refuse fault consumed => simp

/-- Reading is interrupted behind all tokens exactly if it is behind the first ones and goes on from
there. -/
theorem read_append_eq_unfinished_iff (front back : List Token) :
    read outer reading (front ++ back) = .unfinished stuck ↔
      exists middle, read outer reading front = .unfinished middle ∧
        read outer middle back = .unfinished stuck := by
  induction front generalizing reading with
  | nil => simp [read]
  | cons token front ih =>
      simp only [List.cons_append, read_cons_eq_unfinished_iff, ih]
      constructor
      · rintro ⟨next, shifts, middle, first, second⟩
        exact ⟨middle, ⟨next, shifts, first⟩, second⟩
      · rintro ⟨middle, ⟨next, shifts, first⟩, second⟩
        exact ⟨next, shifts, middle, first, second⟩

/-- A token that opens no construct is not repeated more often than there are constructs to close,
and once more.  The induction is on the number of repetitions, which stays above that of the frames. -/
theorem read_replicate_ne_unfinished (noOpening : token.kind.part ≠ .opening) {count : Nat}
    (enough : reading.frames.length < count) (stuck : Reading) :
    read outer reading (List.replicate (count + 1) token) ≠ .unfinished stuck := by
  induction count generalizing reading with
  | zero => exact absurd enough (Nat.not_lt_zero _)
  | succ count ih =>
      intro unfinished
      rw [List.replicate_succ, read_cons_eq_unfinished_iff] at unfinished
      rcases unfinished with ⟨next, shifts, unfinished⟩
      rcases Reading.shifts_once_or_leaves noOpening shifts with once | fewer
      · rw [List.replicate_succ, read_cons_eq_unfinished_iff] at unfinished
        rcases unfinished with ⟨further, again, _⟩
        exact once further again
      · exact ih (by omega) unfinished

/-- A token that opens a construct can be repeated for ever. -/
theorem exists_unfinished_of_opening (isOpening : token.kind.part = .opening) (count : Nat)
    (frames : List Frame) (whole : Bool) :
    exists stuck, read outer ⟨frames, .start whole⟩ (List.replicate count token) = .unfinished stuck := by
  induction count generalizing frames whole with
  | zero => exact ⟨_, rfl⟩
  | succ count ih =>
      rcases Reading.exists_shift_of_opening isOpening outer frames whole with ⟨more, inside, shifts⟩
      rcases ih more inside with ⟨stuck, unfinished⟩
      exact ⟨stuck, (read_cons_eq_unfinished_iff _).mpr ⟨_, shifts, unfinished⟩⟩

/-- What a token has not decided after some repetitions it never decides. -/
theorem exists_unfinished_replicate
    (unfinished : read outer reading (List.replicate (reading.frames.length + 3) token) = .unfinished stuck)
    (count : Nat) : exists later, read outer reading (List.replicate count token) = .unfinished later := by
  by_cases isOpening : token.kind.part = .opening
  · rw [List.replicate_succ, read_cons_eq_unfinished_iff] at unfinished
    rcases unfinished with ⟨next, shifts, _⟩
    rcases reading with ⟨frames, awaited⟩
    rcases Reading.exists_start_of_opening isOpening shifts with ⟨whole, awaits⟩
    change awaited = .start whole at awaits
    rw [awaits]
    exact exists_unfinished_of_opening isOpening count frames whole
  · exact absurd unfinished (read_replicate_ne_unfinished isOpening (by omega) stuck)

/-- Some number of repetitions of the last token decides whether there is a program. -/
def Halts (parser : Parser) : Prop :=
  forall last, parser.last = some last -> exists count, forall stuck,
    read parser.openBindings {} (parser.rest ++ List.replicate count last) ≠ .unfinished stuck

theorem program_eq_endless_iff (parser : Parser) : parser.program.1 = .error .endless ↔
    exists last reading stuck, parser.last = some last ∧
      read parser.openBindings {} parser.rest = .unfinished reading ∧
      read parser.openBindings reading (List.replicate (reading.frames.length + 3) last) =
        .unfinished stuck := by
  unfold program
  cases parser.last with
  | none => simp
  | some last =>
      cases read parser.openBindings {} parser.rest with
      | accepted e left => simp
      | refused diagnostic left stillOpen => simp
      | unfinished reading =>
          cases second : read parser.openBindings reading
              (List.replicate (reading.frames.length + 3) last) with
          | accepted e left => simp [second]
          | refused diagnostic left stillOpen => simp [second]
          | unfinished stuck => simp [second]

/-- A parser that gives up would go on for ever, and no other one would. -/
theorem endless_iff (parser : Parser) : parser.program.1 = .error .endless ↔ ¬ parser.Halts := by
  rw [program_eq_endless_iff]
  constructor
  · rintro ⟨last, reading, stuck, isLast, first, second⟩ halts
    rcases halts last isLast with ⟨count, decided⟩
    rcases exists_unfinished_replicate second count with ⟨later, third⟩
    exact decided later ((read_append_eq_unfinished_iff _ _).mpr ⟨reading, first, third⟩)
  · intro endless
    simp only [Halts, not_forall, not_exists, not_not] at endless
    rcases endless with ⟨last, isLast, unfinished⟩
    rcases unfinished 0 with ⟨reading, first⟩
    rw [List.replicate_zero, List.append_nil] at first
    rcases unfinished (reading.frames.length + 3) with ⟨stuck, whole⟩
    rcases (read_append_eq_unfinished_iff _ _).mp whole with ⟨middle, again, second⟩
    cases first.symm.trans again
    exact ⟨last, reading, stuck, isLast, first, second⟩

/-- A sign that opens a construct, and no end token behind it. -/
example : (ofTokens [Symbol.tilde.token]).program.1 = .error .endless := by decide

end Parser

/-! ## The end token is not passed -/

theorem Reading.kind_of_accept {outer : Nat} {reading : Reading} {token : Token} {e : Expr}
    (accepts : reading.step outer token = .accept e) : token.kind = .endOfInput := by
  have started (frames : List Frame) (whole : Bool) : begin token frames whole ≠ .accept e := by
    intro accepts
    have possible := begun token frames whole
    rw [accepts] at possible
    cases possible
  have demanded (wanted : Token.Kind) (next : Reading) : demand wanted token next ≠ .accept e := by
    unfold demand
    split <;> intro accepts <;> cases accepts
  rcases reading with ⟨frames, awaited⟩
  cases awaited with
  | expression => exact absurd accepts (started frames true)
  | operand => exact absurd accepts (started frames false)
  | binder start => exact absurd accepts (demanded _ _)
  | arrow name start => exact absurd accepts (demanded _ _)
  | continuation finished closed =>
      have possible := settled outer token frames finished closed
      change settle outer token frames finished closed = _ at accepts
      rw [accepts] at possible
      cases possible with
      | accepts isEnd => exact isEnd

namespace Parser

variable {tokens front behind : List Token} {finish : Token} {start outer : Nat}

/-- Up to the first end token it is decided whether there is a program, whatever is behind this
token.  A program reaches up to it, and otherwise it is among the tokens that are left. -/
theorem read_upTo_finish (isEnd : finish.kind = .endOfInput)
    (only : forall token, token ∈ front -> token.kind ≠ .endOfInput) (outer : Nat) (reading : Reading) :
    (exists e, forall behind,
      read outer reading (front ++ finish :: behind) = .accepted e (finish :: behind)) ∨
    exists diagnostic left stillOpen, left <:+ front ∧ forall behind,
      read outer reading (front ++ finish :: behind) =
        .refused diagnostic (left ++ finish :: behind) stillOpen := by
  induction front generalizing reading with
  | nil =>
      simp only [List.nil_append, read]
      cases effect : reading.step outer finish with
      | shift next => exact absurd effect (Reading.step_ne_shift outer isEnd reading next)
      | accept e => exact Or.inl ⟨e, fun _ => rfl⟩
      | refuse fault consumed =>
          cases consumed with
          | false => exact Or.inr ⟨_, [], _, List.suffix_rfl, fun _ => rfl⟩
          | true =>
              have isNumber := (Reading.noLiteral_of_consumed effect).1
              cases isNumber.symm.trans isEnd
  | cons token front ih =>
      rcases List.forall_mem_cons.mp only with ⟨other, later⟩
      simp only [List.cons_append, read]
      cases effect : reading.step outer token with
      | shift next =>
          rcases ih later next with accepted | ⟨diagnostic, left, stillOpen, suffix, refused⟩
          · exact Or.inl accepted
          · exact Or.inr ⟨diagnostic, left, stillOpen, suffix.trans (List.suffix_cons token front), refused⟩
      | accept e => exact absurd (Reading.kind_of_accept effect) other
      | refuse fault consumed =>
          cases consumed with
          | false => exact Or.inr ⟨_, token :: front, _, List.suffix_rfl, fun _ => rfl⟩
          | true => exact Or.inr ⟨_, front, _, List.suffix_cons token front, fun _ => rfl⟩

/-- A parser that has read the first tokens of a list and has left some bindings open. -/
def resumed (tokens : List Token) (start outer : Nat) : Parser where
  rest := tokens.drop start
  last := tokens.getLast?
  openBindings := outer

/-- The first end token that is not in front of `start` has the index `finish`. -/
structure FirstEnd (tokens : List Token) (start finish : Nat) : Prop where
  behind : start ≤ finish
  isEnd : exists token, tokens[finish]? = some token ∧ token.kind = .endOfInput
  first : forall index token, start ≤ index -> index < finish -> tokens[index]? = some token ->
    token.kind ≠ .endOfInput

theorem Ends.exists_first (ends : Ends tokens) (inside : start < tokens.length) :
    exists front finish behind, tokens.drop start = front ++ finish :: behind ∧
      finish.kind = .endOfInput ∧ forall token, token ∈ front -> token.kind ≠ .endOfInput := by
  rcases ends with ⟨body, last, rfl, isEnd⟩
  rw [List.length_append, List.length_singleton] at inside
  have listed : last ∈ (body ++ [last]).drop start := by
    rw [List.drop_append_of_le_length (by omega)]
    exact List.mem_append_right _ List.mem_cons_self
  have found : ((body ++ [last]).drop start).find? (fun token => token.kind = .endOfInput) ≠ none := by
    intro missing
    exact List.find?_eq_none.mp missing last listed (decide_eq_true isEnd)
  rcases Option.ne_none_iff_exists'.mp found with ⟨finish, isFirst⟩
  rcases List.find?_eq_some_iff_append.mp isFirst with ⟨isFinish, front, behind, cut, only⟩
  refine ⟨front, finish, behind, cut, of_decide_eq_true isFinish, ?_⟩
  intro token member isToken
  have other := only token member
  simp [isToken] at other

theorem firstEnd_of_cut (cut : tokens.drop start = front ++ finish :: behind)
    (isEnd : finish.kind = .endOfInput) (only : forall token, token ∈ front -> token.kind ≠ .endOfInput) :
    FirstEnd tokens start (start + front.length) := by
  have indexed (offset : Nat) : tokens[start + offset]? = (front ++ finish :: behind)[offset]? := by
    rw [← cut, List.getElem?_drop]
  refine ⟨Nat.le_add_right _ _, ⟨finish, ?_, isEnd⟩, ?_⟩
  · rw [indexed, List.getElem?_append_right (Nat.le_refl _), Nat.sub_self, List.getElem?_cons_zero]
  · intro index token above below isToken
    rcases Nat.exists_eq_add_of_le above with ⟨offset, rfl⟩
    rw [indexed, List.getElem?_append_left (by omega)] at isToken
    exact only token (List.mem_of_getElem? isToken)

/-- A parser gives a program or a fault as soon as reading does, whatever the last token is. -/
theorem program_upTo_finish (isEnd : finish.kind = .endOfInput)
    (only : forall token, token ∈ front -> token.kind ≠ .endOfInput) (outer : Nat) :
    exists result left stillOpen, left <:+ front ∧
      (forall behind last, program ⟨front ++ finish :: behind, some last, outer⟩ =
        (result, ⟨left ++ finish :: behind, some last, stillOpen⟩)) ∧
      ((exists e, result = .ok e ∧ left = []) ∨ exists diagnostic, result = .error (.refused diagnostic)) := by
  rcases read_upTo_finish isEnd only outer {} with
    ⟨e, accepted⟩ | ⟨diagnostic, left, stillOpen, suffix, refused⟩
  · refine ⟨.ok e, [], outer, List.nil_suffix, fun behind last => ?_, Or.inl ⟨e, rfl, rfl⟩⟩
    simp only [program, accepted, List.nil_append]
  · refine ⟨_, left, stillOpen, suffix, fun behind last => ?_, Or.inr ⟨diagnostic, rfl⟩⟩
    simp only [program, refused]

theorem resumed_of_cut (cut : tokens.drop start = front ++ finish :: behind) (outer : Nat) :
    exists last, resumed tokens start outer = ⟨front ++ finish :: behind, some last, outer⟩ := by
  have nonempty : tokens ≠ [] := by
    intro empty
    rw [empty, List.drop_nil] at cut
    exact absurd cut.symm (List.append_ne_nil_of_right_ne_nil _ (List.cons_ne_nil _ _))
  refine ⟨tokens.getLast nonempty, ?_⟩
  rw [resumed, cut, List.getLast?_eq_some_getLast nonempty]

/-- Tokens that agree up to an end token are cut at it alike. -/
theorem drop_take_of_cut (cut : tokens.drop start = front ++ finish :: behind) (others : List Token) :
    (tokens.take (start + front.length + 1) ++ others).drop start = front ++ finish :: others := by
  have lengths := congrArg List.length cut
  simp only [List.length_drop, List.length_append, List.length_cons] at lengths
  have kept : (tokens.take (start + front.length + 1)).drop start = front ++ [finish] := by
    rw [List.drop_take, cut, Nat.add_assoc, Nat.add_sub_cancel_left, List.take_append,
      List.take_of_length_le (by omega), Nat.add_sub_cancel_left]
    rfl
  rw [List.drop_append_of_le_length (by rw [List.length_take]; omega), kept, List.append_assoc]
  rfl

theorem drop_of_cut {taken left : List Token} (cut : tokens.drop start = taken ++ left) :
    tokens.drop (start + taken.length) = left := by
  rw [← List.drop_drop, cut, List.drop_left]

/-- A parser gives up exactly if it would go on for ever.  With an end token at the end of the tokens
it gives a program or refuses a token, from wherever it starts and however many bindings are open: it
stops at the first end token at the latest, and what is behind this token makes no difference.  So
every text is a program or has at least one diagnostic. -/
theorem program_halts :
    (forall parser : Parser, parser.program.1 = .error .endless ↔ ¬ parser.Halts) ∧
    (forall (tokens : List Token) (start outer : Nat), Ends tokens -> start < tokens.length ->
      (resumed tokens start outer).Halts ∧
      exists finish stop, FirstEnd tokens start finish ∧ start ≤ stop ∧ stop ≤ finish ∧
        (resumed tokens start outer).program.2.rest = tokens.drop stop ∧
        (forall others, (resumed (tokens.take (finish + 1) ++ others) start outer).program.1 =
          (resumed tokens start outer).program.1) ∧
        ((exists e, (resumed tokens start outer).program.1 = .ok e ∧ stop = finish) ∨
          exists diagnostic, (resumed tokens start outer).program.1 = .error (.refused diagnostic))) ∧
    forall source : Text, Ends (Scan.run source).tokens ∧
      ((exists e, Source.parse source = .ok e) ∨
        exists first others, Source.parse source = .error (first :: others)) := by
  refine ⟨endless_iff, ?_, ?_⟩
  · intro tokens start outer ends inside
    rcases ends.exists_first inside with ⟨front, finish, behind, cut, isEnd, only⟩
    have isFirst := firstEnd_of_cut cut isEnd only
    rcases program_upTo_finish isEnd only outer with
      ⟨result, left, stillOpen, ⟨taken, rfl⟩, decided, kinds⟩
    -- What is behind the end token plays no part in the result.
    have outcome {list others : List Token}
        (cutAlike : list.drop start = (taken ++ left) ++ finish :: others) :
        (resumed list start outer).program.1 = result ∧
          (resumed list start outer).program.2.rest = left ++ finish :: others := by
      rcases resumed_of_cut cutAlike outer with ⟨last, isParser⟩
      rw [isParser, decided]
      exact ⟨rfl, rfl⟩
    rcases outcome cut with ⟨isResult, isRest⟩
    have halts : (resumed tokens start outer).Halts := by
      by_contra endless
      rw [← endless_iff, isResult] at endless
      rcases kinds with ⟨e, rfl, _⟩ | ⟨diagnostic, rfl⟩ <;> cases endless
    have isStop : tokens.drop (start + taken.length) = left ++ finish :: behind :=
      drop_of_cut (cut.trans (List.append_assoc _ _ _))
    refine ⟨halts, _, start + taken.length, isFirst, Nat.le_add_right _ _, ?_,
      isRest.trans isStop.symm, ?_, ?_⟩
    · rw [List.length_append]
      omega
    · intro others
      rw [(outcome (drop_take_of_cut cut others)).1, isResult]
    · rw [isResult]
      rcases kinds with ⟨e, isProgram, rfl⟩ | refused
      · exact Or.inl ⟨e, isProgram, by rw [List.append_nil]⟩
      · exact Or.inr refused
  · intro source
    refine ⟨⟨_, _, rfl, rfl⟩, ?_⟩
    cases parsed : Source.parse source with
    | ok e => exact Or.inl ⟨e, rfl⟩
    | error diagnostics =>
        rcases List.exists_cons_of_ne_nil (Source.ne_nil_of_parse parsed) with ⟨first, others, rfl⟩
        exact Or.inr ⟨first, others, rfl⟩

/-- The tokens of `let x <- 08` and of `in x`, with an end token behind both. -/
def cutShort : List Token :=
  [Keyword.letWord.token, ⟨.identifier, "x", .start⟩, Symbol.assign.token, ⟨.number, "08", .start⟩,
    .finish .start, Keyword.inWord.token, ⟨.identifier, "x", .start⟩, .finish .start]

theorem program_halts_cutShort : Ends cutShort ∧ 0 < cutShort.length ∧
    (resumed cutShort 0 2).program.1 = .error (.refused ⟨.invalidNumeral "08", .start⟩) ∧
    (resumed cutShort 0 2).Halts ∧
    exists finish stop, FirstEnd cutShort 0 finish ∧ stop ≤ finish ∧
      (resumed cutShort 0 2).program.2.rest = cutShort.drop stop ∧
      forall others, (resumed (cutShort.take (finish + 1) ++ others) 0 2).program.1 =
        (resumed cutShort 0 2).program.1 := by
  have ends : Ends cutShort := ⟨cutShort.take 7, .finish .start, rfl, rfl⟩
  have inside : 0 < cutShort.length := by decide
  rcases program_halts.2.1 cutShort 0 2 ends inside with
    ⟨halts, finish, stop, isFirst, _, before, isRest, alike, _⟩
  exact ⟨ends, inside, by decide, halts, finish, stop, isFirst, before, isRest, alike⟩

end Parser

end Monotype
