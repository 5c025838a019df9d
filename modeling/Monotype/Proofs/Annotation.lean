import Monotype.Evaluation
import Monotype.Report
import Monotype.Proofs.Addition
import Monotype.Proofs.Inference
import Monotype.Proofs.RoundTrip

namespace Monotype

/-!
# Types in the source

A source is shown with its types by adding a comment for each binder to the line where the binder
stands.  The comments hold no closing mark and no line feed, because names are identifiers.  So the
source with its comments is the same program, provided that no line with a binder ends inside a block
comment: there the closing mark of the addition would end that comment too early.
-/

/-! ## Names of binders -/

/-- Every binder goes by an identifier and a count. -/
def Books.Named (books : Books) : Prop :=
  forall binder, binder ∈ books.ledger.binders -> exists name, exists index : Nat,
    binder.term = .binder name index ∧ name.IsIdentifier

theorem Walked.named {comparison : Comparison} {env : Env Term} {node : Nat} {e : Expr}
    {books after : Books} {term : Term} (walked : Walked comparison env node e books term after)
    (writable : e.Writable) (named : books.Named) : after.Named := by
  induction walked with
  | int => exact named
  | bool => exact named
  | var found => exact named
  | @letIn _ _ name _ _ _ _ _ _ _ _ ofBound ofBody boundIh bodyIh =>
      rcases writable with ⟨identifier, boundWritable, bodyWritable⟩
      refine bodyIh bodyWritable ?_
      intro binder member
      rcases List.mem_append.mp member with earlier | new
      · exact boundIh boundWritable named binder earlier
      · rw [List.mem_singleton.mp new]
        exact ⟨name, _, rfl, identifier⟩
  | ite ofCondition ofConsequent ofAlternate conditionIh consequentIh alternateIh =>
      rcases writable with ⟨conditionWritable, consequentWritable, alternateWritable⟩
      exact alternateIh alternateWritable
        (consequentIh consequentWritable (conditionIh conditionWritable named))
  | unary ofOperand ih => exact ih writable named
  | @binary _ _ op _ _ _ _ _ afterRight _ _ ofLeft ofRight leftIh rightIh =>
      intro binder member
      change binder ∈ (afterRight.settle comparison op).ledger.binders at member
      rw [Books.ledger_settle] at member
      exact rightIh writable.2 (leftIh writable.1 named) binder member

theorem Term.isWordUnit_of_mem_display {name : Text} (identifier : name.IsIdentifier) (index : Nat)
    {u : CodeUnit} (member : u ∈ (Term.binder name index).display) : u.isWordUnit = true ∨ u = '#' := by
  rw [display] at member
  by_cases first : (index : Int) = 0
  · rw [if_pos first] at member
    exact Or.inl (identifier.isWordUnit member)
  · rw [if_neg first] at member
    rcases List.mem_append.mp member with front | digit
    · rcases List.mem_append.mp front with inName | hash
      · exact Or.inl (identifier.isWordUnit inName)
      · exact Or.inr (List.mem_singleton.mp hash)
    · exact Or.inl (CodeUnit.isWordUnit_of_isDigit (Text.isDigit_of_mem_ofNat digit))

/-- Inferred binders are shown by letters, digits and number signs. -/
theorem Inference.isWordUnit_of_mem_display {e : Expr} (writable : e.Writable)
    (wellScoped : e.isWellScoped = true) {comparison : Comparison} {inference : Inference}
    (inferred : e.infer comparison = .ok inference) {typing : Typing}
    (succeeded : inference.typing = .ok typing) (binder : TypedBinder) (listed : binder ∈ typing.binders)
    (u : CodeUnit) (member : u ∈ binder.display) : u.isWordUnit = true ∨ u = '#' := by
  rcases e.constraints_eq_ok wellScoped comparison with ⟨root, books, walked, gathered⟩
  rcases exists_follows walked with ⟨other, found, follows⟩
  rw [Expr.infer, gathered] at inferred
  cases found.symm.trans inferred
  have entered : binder.toBinder ∈ books.ledger.binders := by
    rw [← follows.binders_eq typing succeeded]
    exact List.mem_map_of_mem listed
  have empty : Books.Named {} := by
    intro binder member
    cases member
  rcases walked.named writable empty _ entered with ⟨name, index, isBinder, identifier⟩
  rw [TypedBinder.display, isBinder] at member
  exact Term.isWordUnit_of_mem_display identifier index member

/-! ## Comments for binders -/

namespace Inference

/-- The text between the marks of the comment for a binder. -/
def note (binder : TypedBinder) : Text :=
  " " ++ binder.display ++ ": " ++ binder.type.name ++ " "

theorem comment_eq (binder : TypedBinder) : comment binder = (Lexeme.block (note binder)).text := by
  simp only [comment, note, Lexeme.block, List.append_assoc]
  rfl

/-- The note for a binder consists of letters, digits and few other units. -/
theorem not_mem_note {binder : TypedBinder}
    (units : forall u, u ∈ binder.display -> u.isWordUnit = true ∨ u = '#') {u : CodeUnit}
    (notWord : ¬ u.isWordUnit = true) (other : u ≠ '#' ∧ u ≠ ' ' ∧ u ≠ ':') : u ∉ note binder := by
  have typeUnits : forall v, v ∈ binder.type.name -> v.isWordUnit = true := by
    cases binder.type <;> exact List.all_eq_true.mp (by decide)
  simp only [note, List.mem_append, not_or]
  refine ⟨⟨⟨⟨?_, ?_⟩, ?_⟩, fun inType => notWord (typeUnits u inType)⟩, ?_⟩
  · exact fun inSpace => other.2.1 (List.mem_singleton.mp inSpace)
  · intro inDisplay
    rcases units u inDisplay with wordUnit | hash
    · exact notWord wordUnit
    · exact other.1 hash
  · intro inColon
    rcases List.mem_cons.mp inColon with colon | inSpace
    · exact other.2.2 colon
    · exact other.2.1 (List.mem_singleton.mp inSpace)
  · exact fun inSpace => other.2.1 (List.mem_singleton.mp inSpace)

/-- The addition to a line: the comments for its binders, each of them behind a space. -/
def addition (binders : List TypedBinder) (line : Nat) : Text :=
  (commentsOn binders line).flatMap (fun comment => Lexeme.space.text ++ comment)

theorem space_append_join (first : Text) (rest : List Text) :
    Lexeme.space.text ++ Text.join " " (first :: rest) =
      (first :: rest).flatMap (fun part => Lexeme.space.text ++ part) := by
  induction rest generalizing first with
  | nil => rw [Text.join, List.intercalate_singleton, List.flatMap_singleton]
  | cons second rest ih =>
      rw [Text.join_cons _ _ (List.cons_ne_nil second rest), List.flatMap_cons, ← ih second,
        List.append_assoc, List.append_assoc]
      rfl

theorem annotate_eq (binders : List TypedBinder) (line : Nat) (text : Text) :
    annotate binders line text = text ++ addition binders line := by
  rw [annotate, addition]
  cases commentsOn binders line with
  | nil => rw [List.flatMap_nil, List.append_nil]
  | cons first rest =>
      rw [← space_append_join, ← List.append_assoc]
      rfl

theorem inline_eq_weave {inference : Inference} {typing : Typing} (succeeded : inference.typing = .ok typing)
    (source : Text) : inference.inline source = source.weave (addition typing.binders) 1 := by
  have added : (fun (earlier : Nat) (text : Text) => annotate typing.binders (earlier + 1) text) =
      fun earlier text => text ++ addition typing.binders (1 + earlier) := by
    funext earlier text
    rw [annotate_eq, Nat.add_comm]
  rw [inline, succeeded, ← Text.unlines_mapIdx_lines, ← added]

theorem idle_addition {binders : List TypedBinder}
    (units : forall binder, binder ∈ binders -> forall u, u ∈ binder.display ->
      u.isWordUnit = true ∨ u = '#') (line : Nat) : Lexeme.Idle (addition binders line) := by
  have notes : addition binders line =
      ((binders.filter (fun binder => binder.place.map Position.line = some line)).map note).flatMap
        (fun body => Lexeme.space.text ++ (Lexeme.block body).text) := by
    rw [addition, commentsOn, List.flatMap_map, List.flatMap_map]
    congr 1
    funext binder
    rw [comment_eq]
  rw [notes]
  apply Lexeme.idle_blocks
  intro body member
  rcases List.mem_map.mp member with ⟨binder, kept, rfl⟩
  have binderUnits := units binder (List.mem_of_mem_filter kept)
  constructor
  · intro closed
    have inside : CodeUnit.ofChar ')' ∈ note binder := closed.subset (by decide)
    exact not_mem_note binderUnits (by decide) (by decide) inside
  · exact not_mem_note binderUnits (by decide) (by decide)

theorem addition_spaced (binders : List TypedBinder) (line : Nat) :
    addition binders line = [] ∨ (addition binders line).head? = some (CodeUnit.ofChar ' ') := by
  rw [addition]
  cases commentsOn binders line with
  | nil => exact Or.inl rfl
  | cons first rest => exact Or.inr rfl

theorem addition_eq_nil {binders : List TypedBinder} {line : Nat}
    (elsewhere : forall binder, binder ∈ binders -> binder.place.map Position.line ≠ some line) :
    addition binders line = [] := by
  have none : binders.filter (fun binder => binder.place.map Position.line = some line) = [] := by
    rw [List.filter_eq_nil_iff]
    intro binder listed here
    exact elsewhere binder listed (of_decide_eq_true here)
  rw [addition, commentsOn, none]
  rfl

end Inference

/-! ## Programs with comments -/

namespace Source

/-- A block comment goes on beyond the end of the line. -/
def EndsInComment (source : Text) (line : Nat) : Prop :=
  exists piece, piece ∈ Lexeme.placed .start (Lexeme.split source) ∧ piece.2.IsBlock ∧
    piece.1.line ≤ line ∧ line < (piece.1.after piece.2.text).line

instance (source : Text) (line : Nat) : Decidable (EndsInComment source line) :=
  inferInstanceAs (Decidable (exists piece, piece ∈ Lexeme.placed .start (Lexeme.split source) ∧ _))

theorem unbroken_addition {source : Text} {binders : List TypedBinder}
    (outside : forall binder, binder ∈ binders -> forall place, binder.place = some place ->
      ¬ EndsInComment source place.line) :
    Lexeme.Unbroken (Inference.addition binders) (Lexeme.placed .start (Lexeme.split source)) := by
  rintro ⟨start, lexeme⟩ listed notFeed line starts ends
  rcases Lexeme.exists_first_of_mem (Lexeme.mem_of_mem_placed listed) with ⟨u, rest, rfl⟩
  have feeds : CodeUnit.ofChar '\n' ∈ (Lexeme.first u rest).text := by
    by_contra oneLine
    have sameLine := Position.line_after oneLine start
    simp only at starts ends
    omega
  have isBlock := Lexeme.isBlock_of_first notFeed feeds
  apply Inference.addition_eq_nil
  intro binder inBinders here
  rcases Option.map_eq_some_iff.mp here with ⟨place, placed, rfl⟩
  exact outside binder inBinders place placed ⟨_, listed, isBlock, starts, ends⟩

/-- If no line with a binder ends inside a block comment, then the source with the types in comments
is the same program, and each part of it stands where it stood. -/
theorem parse_inline (source : Text) (e : Expr) (parsed : parse source = .ok e)
    (wellScoped : e.isWellScoped = true) (comparison : Comparison) (inference : Inference)
    (inferred : e.infer comparison = .ok inference) (typing : Typing)
    (succeeded : inference.typing = .ok typing)
    (outside : forall binder, binder ∈ typing.binders -> forall place, binder.place = some place ->
      ¬ EndsInComment source place.line) :
    parse (inference.inline source) = .ok e := by
  rcases (parse_eq_ok_iff source e).mp parsed with ⟨faultless, accepted⟩
  have clean := Lexeme.clean_of_diagnostics faultless
  have idle := Inference.idle_addition
    (Inference.isWordUnit_of_mem_display (writable_of_parse parsed) wellScoped inferred succeeded)
  have alike := Lexeme.alike_weave idle (Inference.addition_spaced typing.binders) clean
    (unbroken_addition outside)
  have woven : inference.inline source =
      source.weave (Inference.addition typing.binders) Position.start.line :=
    Inference.inline_eq_weave succeeded source
  rw [← woven] at alike
  refine (parse_eq_ok_iff _ e).mpr ⟨Lexeme.diagnostics_placed alike.clean .start, ?_⟩
  -- Only the end token may have moved.
  rw [Scan.tokens_run] at accepted ⊢
  rw [alike.tokens_eq]
  exact Parser.program_concat_congr rfl rfl accepted

/-- What has been computed from the types of a program has been computed from an inference of it. -/
theorem exists_of_computed (e : Expr) (comparison : Comparison) {V : Type} (view : Inference -> Typing -> V)
    (result : V) (computed : (e.infer comparison).toOption.bind (fun inference =>
      inference.typing.toOption.map (view inference)) = some result) :
    exists inference typing, e.infer comparison = .ok inference ∧ inference.typing = .ok typing ∧
      view inference typing = result := by
  rcases Option.bind_eq_some_iff.mp computed with ⟨inference, isInference, found⟩
  rcases Option.map_eq_some_iff.mp found with ⟨typing, isTyping, viewed⟩
  have ok_of_toOption : forall {F A : Type} {outcome : Except F A} {value : A},
      outcome.toOption = some value -> outcome = .ok value := by
    intro F A outcome value isValue
    cases outcome with
    | error fault => cases isValue
    | ok other => exact congrArg _ (Option.some.inj isValue)
  exact ⟨inference, typing, ok_of_toOption isInference, ok_of_toOption isTyping, viewed⟩

/-- The line of the first binder ends with a comment, and a line without a binder ends inside one. -/
def remarkedSource : Text :=
  "let x <- 1 -- one\nin (* two\nlines *) let x <- x < 2 in x end end"

def remarked : Expr :=
  .letIn "x" (.int 1 (some ⟨1, 9⟩))
    (.letIn "x" (.binary .lt (.var "x" (some ⟨3, 18⟩)) (.int 2 (some ⟨3, 22⟩)) (some ⟨3, 18⟩))
      (.var "x" (some ⟨3, 27⟩)) (some ⟨3, 9⟩)) (some ⟨1, 0⟩)

theorem parse_inline_remarked : parse remarkedSource = .ok remarked ∧ remarked.isWellScoped = true ∧
    EndsInComment remarkedSource 2 ∧
    exists inference typing, remarked.infer .int = .ok inference ∧ inference.typing = .ok typing ∧
      typing.binders.map (fun binder => binder.place) = [some ⟨1, 0⟩, some ⟨3, 9⟩] ∧
      parse (inference.inline remarkedSource) = .ok remarked := by
  have parsed : parse remarkedSource = .ok remarked := by decide +kernel
  have wellScoped : remarked.isWellScoped = true := by decide
  have first : ¬ EndsInComment remarkedSource 1 := by decide +kernel
  have third : ¬ EndsInComment remarkedSource 3 := by decide +kernel
  rcases exists_of_computed remarked .int (fun _ typing => typing.binders.map (fun binder => binder.place))
    [some ⟨1, 0⟩, some ⟨3, 9⟩] (by decide +kernel) with ⟨inference, typing, inferred, succeeded, places⟩
  refine ⟨parsed, wellScoped, by decide +kernel, inference, typing, inferred, succeeded, places, ?_⟩
  apply parse_inline remarkedSource remarked parsed wellScoped .int inference inferred typing succeeded
  intro binder listed place isPlace
  have member : some place ∈ [some ⟨1, 0⟩, some ⟨3, 9⟩] := by
    rw [← places, ← isPlace]
    exact List.mem_map_of_mem listed
  simp only [List.mem_cons, List.not_mem_nil, or_false, Option.some.injEq] at member
  rcases member with rfl | rfl
  · exact first
  · exact third

/-- The line of the binder ends inside a comment, in which an operator and a numeral stand. -/
def swallowedSource : Text :=
  "let x <- 1 (*\n + 1 -- *)\n in x end"

def swallowed : Expr :=
  .letIn "x" (.int 1 (some ⟨1, 9⟩)) (.var "x" (some ⟨3, 4⟩)) (some ⟨1, 0⟩)

/-- The expression that comes to light if the comment ends with its line. -/
def unswallowed : Expr :=
  .letIn "x" (.binary .add (.int 1 (some ⟨1, 9⟩)) (.int 1 (some ⟨2, 3⟩)) (some ⟨1, 9⟩))
    (.var "x" (some ⟨3, 4⟩)) (some ⟨1, 0⟩)

/-- A comment that is added where a block comment goes on may turn the program into another one, with
another value. -/
theorem parse_inline_swallowed : parse swallowedSource = .ok swallowed ∧
    swallowed.isWellScoped = true ∧
    exists inference typing, swallowed.infer .int = .ok inference ∧ inference.typing = .ok typing ∧
      parse (inference.inline swallowedSource) = .ok unswallowed ∧
      unswallowed.bare ≠ swallowed.bare ∧
      swallowed.evaluate [] = .ok (.int 1) ∧ unswallowed.evaluate [] = .ok (.int 2) := by
  rcases exists_of_computed swallowed .int (fun inference _ => parse (inference.inline swallowedSource))
    (.ok unswallowed) (by decide +kernel) with ⟨inference, typing, inferred, succeeded, changed⟩
  exact ⟨by decide +kernel, by decide, inference, typing, inferred, succeeded, changed, by decide, rfl, rfl⟩

end Source

end Monotype
