import Monotype.Proofs.Lexeme
import Monotype.Expr.Parser
import Mathlib.Data.List.Forall2

namespace Monotype

/-!
# Reading pays no heed to places

A reading passes the places of its tokens on to the expression that it builds.  It never decides
anything by them.  So two readings that differ in places alone still do after tokens that differ in
places alone: both go on, or both are complete with the same tree, or both refuse the token for the
same fault.
-/

/-! ## What differs in places alone -/

/-- Frames that differ in places alone. -/
inductive Frame.Alike : Frame -> Frame -> Prop where
  | operand (op : UnaryOp) (start start' : Position) : Alike (.operand op start) (.operand op start')
  | rightOf (op : BinaryOp) {left left' : Expr} (same : left.bare = left'.bare) (start start' : Position) :
      Alike (.rightOf op left start) (.rightOf op left' start')
  | paren : Alike .paren .paren
  | bound (name : Text) (start start' : Position) : Alike (.bound name start) (.bound name start')
  | body (name : Text) {bound bound' : Expr} (same : bound.bare = bound'.bare) (start start' : Position) :
      Alike (.body name bound start) (.body name bound' start')
  | condition (whole : Bool) (start start' : Position) :
      Alike (.condition whole start) (.condition whole start')
  | consequent (whole : Bool) {condition condition' : Expr} (same : condition.bare = condition'.bare)
      (start start' : Position) :
      Alike (.consequent whole condition start) (.consequent whole condition' start')
  | alternate (whole : Bool) {condition condition' consequent consequent' : Expr}
      (same : condition.bare = condition'.bare) (same' : consequent.bare = consequent'.bare)
      (start start' : Position) :
      Alike (.alternate whole condition consequent start) (.alternate whole condition' consequent' start')

inductive Awaited.Alike : Awaited -> Awaited -> Prop where
  | expression : Alike .expression .expression
  | operand : Alike .operand .operand
  | binder (start start' : Position) : Alike (.binder start) (.binder start')
  | arrow (name : Text) (start start' : Position) : Alike (.arrow name start) (.arrow name start')
  | continuation {finished finished' : Expr} (same : finished.bare = finished'.bare) (closed : Bool) :
      Alike (.continuation finished closed) (.continuation finished' closed)

structure Reading.Alike (reading reading' : Reading) : Prop where
  frames : List.Forall₂ Frame.Alike reading.frames reading'.frames
  awaited : reading.awaited.Alike reading'.awaited

/-- Effects of a token that differ in places alone. -/
inductive Reading.Step.Alike : Step -> Step -> Prop where
  | shift {next next' : Reading} (alike : next.Alike next') : Alike (.shift next) (.shift next')
  | accept {whole whole' : Expr} (same : whole.bare = whole'.bare) : Alike (.accept whole) (.accept whole')
  | refuse (fault : Fault) (consumed : Bool) : Alike (.refuse fault consumed) (.refuse fault consumed)

/-- Outcomes that differ in places alone, apart from the tokens that they leave. -/
inductive Parser.Outcome.Alike : Outcome -> Outcome -> Prop where
  | accepted {program program' : Expr} (same : program.bare = program'.bare) (rest rest' : List Token) :
      Alike (.accepted program rest) (.accepted program' rest')
  | refused (fault : Fault) (place place' : Position) (rest rest' : List Token)
      (openBindings openBindings' : Nat) :
      Alike (.refused ⟨fault, place⟩ rest openBindings) (.refused ⟨fault, place'⟩ rest' openBindings')
  | unfinished {reading reading' : Reading} (alike : reading.Alike reading') :
      Alike (.unfinished reading) (.unfinished reading')

/-- Answers of a parser that differ in places alone. -/
inductive Parser.Alike : Except Failure Expr -> Except Failure Expr -> Prop where
  | accepted {program program' : Expr} (same : program.bare = program'.bare) :
      Alike (.ok program) (.ok program')
  | refused (fault : Fault) (place place' : Position) :
      Alike (.error (.refused ⟨fault, place⟩)) (.error (.refused ⟨fault, place'⟩))
  | noTokens : Alike (.error .noTokens) (.error .noTokens)
  | endless : Alike (.error .endless) (.error .endless)

namespace Frame

variable {frames frames' : List Frame}

theorem floor_eq_of_alike (alike : List.Forall₂ Alike frames frames') : floor frames = floor frames' := by
  cases alike with
  | nil => rfl
  | cons frame _ => cases frame <;> rfl

theorem openBindings_eq_of_alike (outer : Nat) (alike : List.Forall₂ Alike frames frames') :
    openBindings outer frames = openBindings outer frames' := by
  rw [openBindings, openBindings]
  refine congrArg _ ?_
  induction alike with
  | nil => rfl
  | cons frame _ ih =>
      rw [List.countP_cons, List.countP_cons, ih]
      cases frame <;> rfl

end Frame

/-! ## One token -/

namespace Reading

variable {token token' : Token} {frames frames' : List Frame} {finished finished' : Expr}

theorem demand_alike (wanted : Token.Kind) (sameKind : token.kind = token'.kind) {next next' : Reading}
    (alike : next.Alike next') : (demand wanted token next).Alike (demand wanted token' next') := by
  rw [demand, demand, sameKind]
  split
  · exact .shift alike
  · exact .refuse _ _

theorem extendOr_alike (sameKind : token.kind = token'.kind)
    (alike : List.Forall₂ Frame.Alike frames frames') (same : finished.bare = finished'.bare)
    (closed : Bool) {otherwise otherwise' : Unit -> Step}
    (otherAlike : (otherwise ()).Alike (otherwise' ())) :
    (extendOr token frames finished closed otherwise).Alike
      (extendOr token' frames' finished' closed otherwise') := by
  rw [extendOr, extendOr, extend?, extend?, sameKind, Frame.floor_eq_of_alike alike]
  cases BinaryOp.ofKind? token'.kind with
  | none => exact otherAlike
  | some op =>
      by_cases extended : closed = false ∧ Frame.floor frames' ≤ op.level
      · simp only [if_pos extended]
        exact .shift ⟨.cons (.rightOf op same _ _) alike, .operand⟩
      · simp only [if_neg extended]
        exact otherAlike

/-- The frames are left one by one on both sides, so the induction is on the stack. -/
theorem settle_alike (outer : Nat) (sameKind : token.kind = token'.kind)
    (alike : List.Forall₂ Frame.Alike frames frames') (same : finished.bare = finished'.bare)
    (closed : Bool) :
    (settle outer token frames finished closed).Alike (settle outer token' frames' finished' closed) := by
  induction alike generalizing finished finished' closed with
  | nil =>
      rw [settle, settle]
      refine extendOr_alike sameKind .nil same closed ?_
      rw [sameKind]
      split
      · exact .accept same
      · exact .refuse _ _
  | cons frame rest ih =>
      have whole := List.Forall₂.cons frame rest
      cases frame with
      | operand op =>
          rw [settle, settle]
          refine extendOr_alike sameKind whole same closed (ih ?_ false)
          simp only [Expr.bare, same]
      | rightOf op left =>
          rw [settle, settle]
          refine extendOr_alike sameKind whole same closed (ih ?_ false)
          simp only [Expr.bare, same, left]
      | paren =>
          rw [settle, settle]
          exact extendOr_alike sameKind whole same closed
            (demand_alike _ sameKind ⟨rest, .continuation same false⟩)
      | bound name =>
          rw [settle, settle]
          exact extendOr_alike sameKind whole same closed
            (demand_alike _ sameKind ⟨.cons (.body name same _ _) rest, .expression⟩)
      | body name bound =>
          rw [settle, settle]
          refine extendOr_alike sameKind whole same closed
            (demand_alike _ sameKind ⟨rest, .continuation ?_ false⟩)
          simp only [Expr.bare, same, bound]
      | condition isWhole =>
          rw [settle, settle]
          exact extendOr_alike sameKind whole same closed
            (demand_alike _ sameKind ⟨.cons (.consequent isWhole same _ _) rest, .expression⟩)
      | consequent isWhole condition =>
          rw [settle, settle]
          exact extendOr_alike sameKind whole same closed
            (demand_alike _ sameKind ⟨.cons (.alternate isWhole condition same _ _) rest, .expression⟩)
      | alternate isWhole condition consequent =>
          rw [settle, settle]
          refine extendOr_alike sameKind whole same closed ?_
          rw [Frame.openBindings_eq_of_alike outer rest, sameKind]
          split
          · refine .shift ⟨rest, .continuation ?_ isWhole⟩
            simp only [Expr.bare, same, condition, consequent]
          · apply ih
            simp only [Expr.bare, same, condition, consequent]

theorem begin_alike (spelled : token.spelling = token'.spelling)
    (alike : List.Forall₂ Frame.Alike frames frames') (whole : Bool) :
    (begin token frames whole).Alike (begin token' frames' whole) := by
  rcases token with ⟨kind, text, place⟩
  rcases token' with ⟨kind', text', place'⟩
  cases spelled
  have leaf {e e' : Expr} (same : e.bare = e'.bare) :
      Step.Alike (.shift ⟨frames, .continuation e false⟩) (.shift ⟨frames', .continuation e' false⟩) :=
    .shift ⟨alike, .continuation same false⟩
  cases kind with
  | number =>
      simp only [begin]
      cases Numeral.value? text with
      | none => exact .refuse _ _
      | some value => exact leaf rfl
  | identifier => exact leaf rfl
  | keyword word =>
      cases word with
      | trueWord => exact leaf rfl
      | falseWord => exact leaf rfl
      | notWord => exact .shift ⟨.cons (.operand .not _ _) alike, .operand⟩
      | letWord => exact .shift ⟨alike, .binder _ _⟩
      | ifWord => exact .shift ⟨.cons (.condition whole _ _) alike, .expression⟩
      | _ => exact .refuse _ _
  | symbol sign =>
      cases sign with
      | tilde => exact .shift ⟨.cons (.operand .neg _ _) alike, .operand⟩
      | leftParen => exact .shift ⟨.cons .paren alike, .expression⟩
      | _ => exact .refuse _ _
  | endOfInput => exact .refuse _ _

/-- Readings that differ in places alone still do after such tokens. -/
theorem step_alike (outer : Nat) {reading reading' : Reading} (alike : reading.Alike reading')
    (spelled : token.spelling = token'.spelling) :
    (reading.step outer token).Alike (reading'.step outer token') := by
  rcases reading with ⟨frames, awaited⟩
  rcases reading' with ⟨frames', awaited'⟩
  rcases alike with ⟨stack, expectation⟩
  have sameKind : token.kind = token'.kind := congrArg Prod.fst spelled
  have sameText : token.text = token'.text := congrArg Prod.snd spelled
  cases expectation with
  | expression => exact begin_alike spelled stack true
  | operand => exact begin_alike spelled stack false
  | binder start start' =>
      refine demand_alike .identifier sameKind ⟨stack, ?_⟩
      rw [sameText]
      exact .arrow _ _ _
  | arrow name => exact demand_alike _ sameKind ⟨.cons (.bound name _ _) stack, .expression⟩
  | continuation same closed => exact settle_alike outer sameKind stack same closed

end Reading

/-! ## All tokens -/

namespace Parser

/-- Whole lists of tokens that differ in places alone are read in step. -/
theorem read_alike (outer : Nat) {tokens tokens' : List Token}
    (spelled : tokens.map Token.spelling = tokens'.map Token.spelling) {reading reading' : Reading}
    (alike : reading.Alike reading') : (read outer reading tokens).Alike (read outer reading' tokens') := by
  induction tokens generalizing tokens' reading reading' with
  | nil =>
      rcases List.map_eq_nil_iff.mp spelled.symm with rfl
      exact .unfinished alike
  | cons token rest ih =>
      rcases List.map_eq_cons_iff.mp spelled.symm with ⟨token', rest', rfl, first, later⟩
      have effect := Reading.step_alike outer alike first.symm
      rw [read, read]
      generalize reading.step outer token = one at effect
      generalize reading'.step outer token' = other at effect
      cases effect with
      | shift next => exact ih later.symm next
      | accept same => exact .accepted same _ _
      | refuse fault consumed => exact .refused fault _ _ _ _ _ _

/-- The answer of a parser passes the places of its tokens on and is the same otherwise. -/
theorem program_alike {tokens tokens' : List Token}
    (spelled : tokens.map Token.spelling = tokens'.map Token.spelling) :
    Alike (ofTokens tokens).program.1 (ofTokens tokens').program.1 := by
  have lasts : tokens.getLast?.map Token.spelling = tokens'.getLast?.map Token.spelling := by
    rw [← List.getLast?_map, spelled, List.getLast?_map]
  have outcome : (read 0 {} tokens).Alike (read 0 {} tokens') := read_alike 0 spelled ⟨.nil, .expression⟩
  unfold program
  simp only [ofTokens]
  cases last : tokens.getLast? with
  | none =>
      rw [last] at lasts
      rw [Option.map_eq_none_iff.mp lasts.symm]
      exact .noTokens
  | some final =>
      rw [last] at lasts
      rcases Option.map_eq_some_iff.mp lasts.symm with ⟨final', last', sameFinal⟩
      rw [last']
      generalize read 0 {} tokens = first at outcome
      generalize read 0 {} tokens' = second at outcome
      cases outcome with
      | accepted same => exact .accepted same
      | refused fault => exact .refused fault _ _
      | @unfinished reading reading' alike =>
          -- The last token is repeated equally often on both sides.
          have spelledAgain : (List.replicate (reading.frames.length + 3) final).map Token.spelling =
              (List.replicate (reading'.frames.length + 3) final').map Token.spelling := by
            rw [List.map_replicate, List.map_replicate, alike.frames.length_eq, sameFinal]
          have again := read_alike 0 spelledAgain alike
          dsimp only
          generalize read 0 reading (List.replicate (reading.frames.length + 3) final) = third at again
          generalize read 0 reading' (List.replicate (reading'.frames.length + 3) final') = fourth at again
          cases again with
          | accepted same => exact .accepted same
          | refused fault => exact .refused fault _ _
          | unfinished => exact .endless

end Parser

end Monotype
