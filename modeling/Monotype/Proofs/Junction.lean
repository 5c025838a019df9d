import Monotype.Proofs.Segment

namespace Monotype

/-!
# Texts one below the other

A line feed stops a lexeme just as the end of the text does: it continues no word, makes no longer
mark of a sign, and is where a comment up to the end of its line ends.  Only a block comment that is
still open goes on behind it.  So the lexemes of two texts with a line feed between them are those of
the first, the line feed, and those of the second.  The second text starts in the first column, and
hence its lexemes keep their columns and are all moved down by the same number of lines.
-/

/-! ## Places further down -/

namespace Position

/-- The same column some lines further down. -/
def lower (lines : Nat) (position : Position) : Position :=
  ⟨position.line + lines, position.column⟩

theorem step_lower (lines : Nat) (position : Position) (u : CodeUnit) :
    (position.lower lines).step u = (position.step u).lower lines := by
  unfold step lower
  split
  · exact congrArg (fun line => Position.mk line 0) (Nat.add_right_comm _ _ _)
  · rfl

theorem after_lower (lines : Nat) (position : Position) (text : Text) :
    (position.lower lines).after text = (position.after text).lower lines := by
  induction text generalizing position with
  | nil => rfl
  | cons u rest ih =>
      change ((position.lower lines).step u).after rest = ((position.step u).after rest).lower lines
      rw [step_lower, ih]

/-- Behind a text and a line feed a new line starts, below the lines of the text. -/
theorem after_feed (text : Text) :
    (start.after text).after [CodeUnit.ofChar '\n'] =
      start.lower (1 + text.count (CodeUnit.ofChar '\n')) := by
  rw [after_start]
  exact congrArg (fun line => Position.mk line 0) (Nat.add_comm _ _)

end Position

def Token.lower (lines : Nat) (token : Token) : Token :=
  { token with position := token.position.lower lines }

def Diagnostic.lower (lines : Nat) (diagnostic : Diagnostic) : Diagnostic :=
  { diagnostic with position := diagnostic.position.lower lines }

namespace Lexeme

variable {lexeme : Lexeme} {after other : Text}

theorem placed_append (place : Position) (front back : List Lexeme) :
    placed place (front ++ back) =
      placed place front ++ placed (place.after (front.flatMap Lexeme.text)) back := by
  induction front generalizing place with
  | nil => rfl
  | cons lexeme front ih =>
      rw [List.cons_append, placed, placed, ih, List.flatMap_cons, Position.after_append, List.cons_append]

theorem placed_lower (lines : Nat) (place : Position) (lexemes : List Lexeme) :
    placed (place.lower lines) lexemes =
      (placed place lexemes).map (fun piece => (piece.1.lower lines, piece.2)) := by
  induction lexemes generalizing place with
  | nil => rfl
  | cons lexeme rest ih => rw [placed, placed, Position.after_lower, ih, List.map_cons]

theorem token?_lower (lines : Nat) (place : Position) (lexeme : Lexeme) :
    lexeme.token? (place.lower lines) = (lexeme.token? place).map (Token.lower lines) := by
  rcases lexeme with ⟨role, text⟩
  cases role <;> rfl

theorem diagnostic?_lower (lines : Nat) (place : Position) (lexeme : Lexeme) :
    lexeme.diagnostic? (place.lower lines) = (lexeme.diagnostic? place).map (Diagnostic.lower lines) := by
  rcases lexeme with ⟨role, text⟩
  cases role <;> rfl

/-! ## Lexemes in front of a line feed -/

/-- What follows a segment may be changed if it starts as before, or with a line feed, or if nothing
follows any more.  An open block comment reaches to the end and is the exception. -/
theorem Segment.before (segment : lexeme.Segment after)
    (terminated : lexeme.role ≠ .fault .unterminatedComment)
    (head : forall u, other.head? = some u -> after.head? = some u ∨ u = '\n') : lexeme.Segment other := by
  have stays {holds : CodeUnit -> Prop} (feed : holds '\n')
      (each : forall u, after.head? = some u -> holds u) : forall u, other.head? = some u -> holds u := by
    intro u isHead
    rcases head u isHead with same | rfl
    · exact each u same
    · exact feed
  cases segment with
  | blank isBlank => exact .blank isBlank other
  | remark oneLine ends => exact .remark oneLine (stays rfl ends)
  | block unclosed => exact .block unclosed other
  | keyword word edge => exact .keyword word (stays rfl edge)
  | identifier isName edge => exact .identifier isName (stays rfl edge)
  | number digit units edge literal => exact .number digit units (stays rfl edge) literal
  | pair writes => exact .pair writes other
  | @sign _ u _ writes alone =>
      exact .sign writes (stays (pair_not_mem_pairs rfl u) alone)
  | invalidNumeral digit units edge noLiteral => exact .invalidNumeral digit units (stays rfl edge) noLiteral
  | unexpected isMark noSign => exact .unexpected isMark noSign other
  | unterminated unclosed => exact absurd rfl terminated

theorem head?_append_feed (front rest : Text) :
    forall u, (front ++ CodeUnit.ofChar '\n' :: rest).head? = some u -> front.head? = some u ∨ u = '\n' := by
  intro u head
  cases front with
  | nil => exact Or.inr (Option.some.inj head).symm
  | cons first front => exact Or.inl head

theorem chained_feed {lexemes : List Lexeme} (chained : Chained [] lexemes)
    (terminated : forall lexeme, lexeme ∈ lexemes -> lexeme.role ≠ .fault .unterminatedComment) (rest : Text) :
    Chained (CodeUnit.ofChar '\n' :: rest) lexemes := by
  induction lexemes with
  | nil => trivial
  | cons lexeme lexemes ih =>
      rcases List.forall_mem_cons.mp terminated with ⟨first, later⟩
      rcases chained with ⟨leads, chained⟩
      rw [List.append_nil] at leads
      exact ⟨(leads.segment.before first (head?_append_feed _ rest)).leads, ih chained later⟩

def feed : Lexeme :=
  ⟨.gap, [CodeUnit.ofChar '\n']⟩

/-- A text with no open comment and a text below it are cut as they are cut alone. -/
theorem split_append_feed {first : Text}
    (terminated : forall lexeme, lexeme ∈ split first -> lexeme.role ≠ .fault .unterminatedComment)
    (second : Text) :
    split (first ++ CodeUnit.ofChar '\n' :: second) = split first ++ feed :: split second := by
  have cut := split_of_chained (chained_feed (chained_split first) terminated second)
  have below : split (CodeUnit.ofChar '\n' :: second) = feed :: split second :=
    split_of_leads (leads_blank rfl second)
  rwa [flatMap_text_split, below] at cut

end Lexeme

namespace Scan

open Lexeme

variable {first : Text}

/-- Block comments that are left open are reported. -/
theorem terminated_of_diagnostics
    (closed : forall diagnostic, diagnostic ∈ (run first).diagnostics ->
      diagnostic.fault ≠ .unterminatedComment) :
    forall lexeme, lexeme ∈ split first -> lexeme.role ≠ .fault .unterminatedComment := by
  intro lexeme member isOpen
  rcases exists_mem_placed member .start with ⟨place, listed⟩
  have reported : (⟨.unterminatedComment, place⟩ : Diagnostic) ∈ (run first).diagnostics := by
    refine List.mem_filterMap.mpr ⟨_, listed, ?_⟩
    rw [diagnostic?, isOpen]
  exact closed _ reported rfl

/-- What lexemes contribute at their places is contributed by those of the first text and, further
down, by those of the second. -/
theorem filterMap_append_feed {A : Type} {contribution : Position -> Lexeme -> Option A}
    {lower : Nat -> A -> A} (silent : forall place, contribution place feed = none)
    (lowered : forall lines place lexeme, contribution (place.lower lines) lexeme =
      (contribution place lexeme).map (lower lines))
    (terminated : forall lexeme, lexeme ∈ split first -> lexeme.role ≠ .fault .unterminatedComment)
    (second : Text) :
    (placed .start (split (first ++ CodeUnit.ofChar '\n' :: second))).filterMap
        (fun piece => contribution piece.1 piece.2) =
      (placed .start (split first)).filterMap (fun piece => contribution piece.1 piece.2) ++
        ((placed .start (split second)).filterMap (fun piece => contribution piece.1 piece.2)).map
          (lower (1 + first.count (CodeUnit.ofChar '\n'))) := by
  have pieces : placed .start (split (first ++ CodeUnit.ofChar '\n' :: second)) =
      placed .start (split first) ++ (Position.start.after first, feed) ::
        (placed .start (split second)).map
          (fun piece => (piece.1.lower (1 + first.count (CodeUnit.ofChar '\n')), piece.2)) := by
    rw [split_append_feed terminated, placed_append, flatMap_text_split, placed]
    change _ ++ _ :: placed ((Position.start.after first).after [CodeUnit.ofChar '\n']) _ = _
    rw [Position.after_feed, placed_lower]
  rw [pieces, List.filterMap_append, List.filterMap_cons, silent, List.filterMap_map, List.map_filterMap]
  simp only [Function.comp_def, lowered]

/-- Scanning goes line by line.  If the first of two texts leaves no block comment open, then the
tokens of both with a line feed between them are those of the first without its end token, and those
of the second moved down by the lines of the first.  The same is true of the diagnostics. -/
theorem run_append_feed (first second : Text)
    (closed : forall diagnostic, diagnostic ∈ (run first).diagnostics ->
      diagnostic.fault ≠ .unterminatedComment) :
    exists tokens finish, (run first).tokens = tokens ++ [finish] ∧ finish.kind = .endOfInput ∧
      (run (first ++ CodeUnit.ofChar '\n' :: second)).tokens = tokens ++
        (run second).tokens.map (Token.lower (1 + first.count (CodeUnit.ofChar '\n'))) ∧
      (run (first ++ CodeUnit.ofChar '\n' :: second)).diagnostics = (run first).diagnostics ++
        (run second).diagnostics.map (Diagnostic.lower (1 + first.count (CodeUnit.ofChar '\n'))) := by
  have terminated := terminated_of_diagnostics closed
  have last : Position.start.after (first ++ CodeUnit.ofChar '\n' :: second) =
      (Position.start.after second).lower (1 + first.count (CodeUnit.ofChar '\n')) := by
    rw [← List.singleton_append, Position.after_append, Position.after_append, Position.after_feed,
      Position.after_lower]
  refine ⟨tokensAt .start (split first), Token.finish (.after .start first), rfl, rfl, ?_, ?_⟩
  · have tokens := filterMap_append_feed (fun _ => rfl) token?_lower terminated second
    rw [tokens_run, tokens_run, tokensAt, tokens, last, List.map_append, List.append_assoc]
    rfl
  · exact filterMap_append_feed (fun _ => rfl) diagnostic?_lower terminated second

/-- A text of two lines that ends with a sign, behind a comment that has been closed. -/
def upper : Text :=
  "x $ (* (*\n*) <"

/-- A text that starts with what would make a longer sign of it and leaves a comment open. -/
def under : Text :=
  "- 08 y\n(* *"

/-- The sign stays alone, and everything behind it is two lines further down. -/
theorem run_append_feed_signs :
    (forall diagnostic, diagnostic ∈ (run upper).diagnostics -> diagnostic.fault ≠ .unterminatedComment) ∧
    (run (upper ++ CodeUnit.ofChar '\n' :: under)).tokens =
      [⟨.identifier, "x", ⟨1, 0⟩⟩, ⟨.symbol .less, "<", ⟨2, 3⟩⟩] ++
        (run under).tokens.map (Token.lower 2) ∧
    (run (upper ++ CodeUnit.ofChar '\n' :: under)).diagnostics =
      [⟨.unexpectedUnit '$', ⟨1, 2⟩⟩] ++ (run under).diagnostics.map (Diagnostic.lower 2) := by
  have reported : (run upper).diagnostics = [⟨.unexpectedUnit '$', ⟨1, 2⟩⟩] := by decide +kernel
  have found : (run upper).tokens =
      [⟨.identifier, "x", ⟨1, 0⟩⟩, ⟨.symbol .less, "<", ⟨2, 3⟩⟩] ++ [.finish ⟨2, 4⟩] := by decide +kernel
  have closed : forall diagnostic, diagnostic ∈ (run upper).diagnostics ->
      diagnostic.fault ≠ .unterminatedComment := by
    rw [reported]
    intro diagnostic listed isOpen
    rw [List.mem_singleton.mp listed] at isOpen
    cases isOpen
  rcases run_append_feed upper under closed with ⟨tokens, finish, whole, _, joined, diagnosed⟩
  have lines : 1 + upper.count (CodeUnit.ofChar '\n') = 2 := by decide +kernel
  rw [lines] at joined diagnosed
  rw [found] at whole
  rw [reported] at diagnosed
  rw [(List.append_inj' whole rfl).1]
  exact ⟨closed, joined, diagnosed⟩

end Scan

end Monotype
