import Monotype.Proofs.Comment

namespace Monotype

/-!
# Additions to the ends of lines

A text is given additions at the ends of some of its lines: spaces, and block comments on one line.
In front of a line feed these are gaps of their own, and a comment up to the end of its line takes
them in.  So all tokens, and even their places, stay as they were, unless an addition is made inside
a lexeme: in a block comment that goes on in the next line.
-/

/-! ## Places -/

namespace Position

theorem line_le_after (position : Position) (text : Text) : position.line ≤ (position.after text).line := by
  induction text generalizing position with
  | nil => exact Nat.le_refl _
  | cons u rest ih =>
      have behind : position.line ≤ (position.step u).line := by
        rw [step]
        split <;> simp
      exact Nat.le_trans behind (ih (position.step u))

theorem line_after {text : Text} (oneLine : CodeUnit.ofChar '\n' ∉ text) (position : Position) :
    (position.after text).line = position.line := by
  induction text generalizing position with
  | nil => rfl
  | cons u rest ih =>
      have other : u ≠ '\n' := fun same => oneLine (same ▸ List.mem_cons_self)
      have stays : (position.step u).line = position.line := by rw [step, if_neg other]
      exact (ih (fun member => oneLine (List.mem_cons_of_mem u member)) _).trans stays

end Position

/-! ## Additions to lines -/

namespace Text

/-- A text with additions to the ends of its lines, the first of which has the given number. -/
def weave (addition : Nat -> Text) : (line : Nat) -> Text -> Text
  | line, [] => addition line
  | line, u :: rest =>
      if u = '\n' then addition line ++ u :: weave addition (line + 1) rest
      else u :: weave addition line rest

theorem join_cons (separator part : Text) {parts : List Text} (more : parts ≠ []) :
    join separator (part :: parts) = part ++ separator ++ join separator parts := by
  cases parts with
  | nil => exact absurd rfl more
  | cons next parts => rw [join, List.intercalate_cons_cons, join, List.append_assoc]

theorem join_cons_cons (separator : Text) (u : CodeUnit) (part : Text) (parts : List Text) :
    join separator ((u :: part) :: parts) = u :: join separator (part :: parts) := by
  cases parts with
  | nil => simp only [join, List.intercalate_singleton]
  | cons next parts =>
      rw [join_cons _ _ (List.cons_ne_nil next parts), join_cons _ _ (List.cons_ne_nil next parts)]
      rfl

/-- Adding to the lines one by one is adding to them in the text. -/
theorem unlines_mapIdx_lines (addition : Nat -> Text) (line : Nat) (text : Text) :
    unlines ((lines text).mapIdx (fun earlier part => part ++ addition (line + earlier))) =
      weave addition line text := by
  induction text generalizing line with
  | nil => simp [lines, splitOn, unlines, join, weave]
  | cons u rest ih =>
      rw [weave, lines, splitOn]
      by_cases newLine : u = '\n'
      · have shifted : (fun (earlier : Nat) (part : Text) => part ++ addition (line + (earlier + 1))) =
            fun earlier part => part ++ addition (line + 1 + earlier) := by
          funext earlier part
          rw [Nat.add_comm earlier, Nat.add_assoc]
        have more : (splitOn '\n' rest).mapIdx
            (fun earlier part => part ++ addition (line + 1 + earlier)) ≠ [] := by
          rw [ne_eq, List.mapIdx_eq_nil_iff]
          exact splitOn_ne_nil _ rest
        rw [if_pos newLine, if_pos newLine, List.mapIdx_cons, shifted, unlines, join_cons _ _ more, ← ih,
          newLine, List.nil_append, List.append_assoc]
        rfl
      · rw [if_neg newLine, if_neg newLine, ← ih, lines]
        cases shape : splitOn '\n' rest with
        | nil => exact absurd shape (splitOn_ne_nil _ rest)
        | cons part others =>
            rw [consFirst, List.mapIdx_cons, List.mapIdx_cons, List.cons_append, unlines, join_cons_cons]
            rfl

/-- Nothing is woven into a text if there are no additions to the lines that end in it. -/
theorem weave_append {addition : Nat -> Text} (place : Position) {text : Text}
    (silent : forall line, place.line ≤ line -> line < (place.after text).line -> addition line = [])
    (after : Text) : weave addition place.line (text ++ after) =
      text ++ weave addition (place.after text).line after := by
  induction text generalizing place with
  | nil => rfl
  | cons u rest ih =>
      rw [List.cons_append, weave, List.cons_append]
      change _ = u :: (rest ++ weave addition ((place.step u).after rest).line after)
      have behind := (place.step u).line_le_after rest
      by_cases newLine : u = '\n'
      · have next : (place.step u).line = place.line + 1 := by rw [Position.step, if_pos newLine]
        rw [next] at behind
        have unchanged := ih (place.step u) (fun line start finish => silent line (by omega) finish)
        rw [next] at unchanged
        rw [if_pos newLine, silent place.line (Nat.le_refl _) behind, unchanged, List.nil_append]
      · have same : (place.step u).line = place.line := by rw [Position.step, if_neg newLine]
        have unchanged := ih (place.step u) (fun line start finish => silent line (by omega) finish)
        rw [same] at unchanged
        rw [if_neg newLine, unchanged]

theorem exists_weave_of_endsLine (addition : Nat -> Text) (line : Nat) {text : Text} (ends : text.EndsLine) :
    exists other, weave addition line text = addition line ++ other ∧ other.EndsLine := by
  cases text with
  | nil => exact ⟨[], (List.append_nil _).symm, endsLine_nil⟩
  | cons u rest =>
      cases ends u rfl
      exact ⟨_, by rw [weave, if_pos rfl], endsLine_lineFeed _⟩

/-- What is woven in changes the first unit to a space at most. -/
theorem head?_weave {addition : Nat -> Text}
    (spaced : forall line, addition line = [] ∨ (addition line).head? = some (CodeUnit.ofChar ' '))
    (line : Nat) (text : Text) : (weave addition line text).head? = text.head? ∨
      (weave addition line text).head? = some (CodeUnit.ofChar ' ') := by
  cases text with
  | nil =>
      rcases spaced line with none | space
      · exact Or.inl (congrArg _ none)
      · exact Or.inr space
  | cons u rest =>
      rw [weave]
      by_cases newLine : u = '\n'
      · rw [if_pos newLine]
        rcases spaced line with none | space
        · rw [none]
          exact Or.inl rfl
        · exact Or.inr (by rw [List.head?_append, space, Option.some_or])
      · rw [if_neg newLine]
        exact Or.inl rfl

end Text

/-! ## Tokens at their places -/

namespace Lexeme

variable {lexeme : Lexeme} {place : Position} {front added after other : Text}

/-- The tokens of lexemes, the first of which starts at the given place. -/
def tokensAt (place : Position) (lexemes : List Lexeme) : List Token :=
  (placed place lexemes).filterMap (fun piece => piece.2.token? piece.1)

/-- None of the lexemes is a fault. -/
def Clean (lexemes : List Lexeme) : Prop :=
  forall lexeme, lexeme ∈ lexemes -> forall fault, lexeme.role ≠ .fault fault

theorem exists_mem_placed {lexemes : List Lexeme} (member : lexeme ∈ lexemes) (place : Position) :
    exists start, (start, lexeme) ∈ placed place lexemes := by
  induction lexemes generalizing place with
  | nil => cases member
  | cons first rest ih =>
      rcases List.mem_cons.mp member with rfl | later
      · exact ⟨place, List.mem_cons_self⟩
      · rcases ih later (place.after first.text) with ⟨start, listed⟩
        exact ⟨start, List.mem_cons_of_mem _ listed⟩

theorem mem_of_mem_placed {lexemes : List Lexeme} {place : Position} {piece : Position × Lexeme}
    (member : piece ∈ placed place lexemes) : piece.2 ∈ lexemes := by
  induction lexemes generalizing place with
  | nil => cases member
  | cons first rest ih =>
      rcases List.mem_cons.mp member with rfl | later
      · exact List.mem_cons_self
      · exact List.mem_cons_of_mem first (ih later)

theorem clean_of_diagnostics {text : Text} (none : (Scan.run text).diagnostics = []) :
    Clean (split text) := by
  intro lexeme member fault isFault
  rcases exists_mem_placed member .start with ⟨start, listed⟩
  have silent := List.filterMap_eq_nil_iff.mp none _ listed
  rw [diagnostic?, isFault] at silent
  cases silent

theorem clean_append_iff (first second : List Lexeme) :
    Clean (first ++ second) ↔ Clean first ∧ Clean second := by
  simp only [Clean, List.mem_append, or_imp, forall_and]

theorem clean_of_gaps {gaps : List Lexeme} (empty : forall lexeme, lexeme ∈ gaps -> lexeme.role = .gap) :
    Clean gaps := by
  intro lexeme member fault isFault
  rw [empty lexeme member] at isFault
  cases isFault

theorem tokensAt_cons (place : Position) (lexeme : Lexeme) (rest : List Lexeme) :
    tokensAt place (lexeme :: rest) =
      (lexeme.token? place).toList ++ tokensAt (place.after lexeme.text) rest := by
  rw [tokensAt, placed, List.filterMap_cons]
  cases lexeme.token? place <;> rfl

theorem tokensAt_gaps {gaps : List Lexeme} (empty : forall lexeme, lexeme ∈ gaps -> lexeme.role = .gap)
    (place : Position) (rest : List Lexeme) :
    tokensAt place (gaps ++ rest) = tokensAt (place.after (gaps.flatMap Lexeme.text)) rest := by
  induction gaps generalizing place with
  | nil => rfl
  | cons gap gaps ih =>
      have silent : gap.token? place = none := by
        rw [token?, empty gap List.mem_cons_self]
      rw [List.cons_append, tokensAt_cons, silent, ih (fun later member => empty later
        (List.mem_cons_of_mem gap member)), List.flatMap_cons, Position.after_append]
      rfl

/-! ## Texts that add no tokens -/

/-- A part of a line that contributes nothing in front of the end of the line. -/
structure Idle (text : Text) : Prop where
  oneLine : CodeUnit.ofChar '\n' ∉ text
  exists_gaps : forall after : Text, after.EndsLine -> exists gaps,
    (forall lexeme, lexeme ∈ gaps -> lexeme.role = .gap) ∧
      gaps.flatMap Lexeme.text = text ∧ split (text ++ after) = gaps ++ split after

theorem idle_remark {body : Text} (oneLine : CodeUnit.ofChar '\n' ∉ body) : Idle (remark body).text := by
  refine ⟨?_, ?_⟩
  · intro member
    rcases List.mem_cons.mp member with dash | member
    · exact absurd dash (by decide)
    · rcases List.mem_cons.mp member with dash | member
      · exact absurd dash (by decide)
      · exact oneLine member
  · intro after ends
    refine ⟨[remark body], ?_, List.append_nil _, ?_⟩
    · intro lexeme member
      rw [List.mem_singleton.mp member]
      rfl
    · exact split_of_leads ((leads_remark_iff body after).mpr ⟨oneLine, ends⟩)

theorem chained_blocks {bodies : List Text}
    (unclosed : forall body, body ∈ bodies -> ¬ closing <:+: body) (after : Text) :
    Chained after (bodies.flatMap (fun body => [space, block body])) := by
  induction bodies with
  | nil => trivial
  | cons body rest ih =>
      have later := ih (fun other member => unclosed other (List.mem_cons_of_mem body member))
      exact ⟨leads_space _, leads_block (unclosed body List.mem_cons_self) _, later⟩

theorem not_mem_block {u : CodeUnit} {body : Text} (mark : u ≠ '(' ∧ u ≠ '*' ∧ u ≠ ')')
    (missing : u ∉ body) : u ∉ (block body).text := by
  simp only [block, closing, List.mem_cons, List.mem_append, List.not_mem_nil, or_false, not_or]
  exact ⟨mark.1, mark.2.1, missing, mark.2⟩

/-- Block comments, each of them behind a space. -/
theorem idle_blocks {bodies : List Text} (harmless : forall body, body ∈ bodies ->
      ¬ closing <:+: body ∧ CodeUnit.ofChar '\n' ∉ body) :
    Idle (bodies.flatMap (fun body => space.text ++ (block body).text)) := by
  have whole : (bodies.flatMap (fun body => [space, block body])).flatMap Lexeme.text =
      bodies.flatMap (fun body => space.text ++ (block body).text) := by
    simp only [List.flatMap_assoc, List.flatMap_cons, List.flatMap_nil, List.append_nil]
  constructor
  · intro member
    rcases List.mem_flatMap.mp member with ⟨body, listed, inside⟩
    rcases List.mem_append.mp inside with inSpace | inBlock
    · exact absurd inSpace (by decide)
    · exact not_mem_block (by decide) (harmless body listed).2 inBlock
  · intro after _
    refine ⟨_, ?_, whole, ?_⟩
    · intro lexeme member
      rcases List.mem_flatMap.mp member with ⟨body, _, inside⟩
      simp only [List.mem_cons, List.not_mem_nil, or_false] at inside
      rcases inside with rfl | rfl <;> rfl
    · rw [← whole]
      exact split_of_chained (chained_blocks (fun body listed => (harmless body listed).1) after)

namespace Idle

theorem tokensAt_eq (idle : Idle front) (ends : after.EndsLine) (place : Position) :
    tokensAt place (split (front ++ after)) = tokensAt (place.after front) (split after) := by
  rcases idle.exists_gaps after ends with ⟨gaps, empty, same, cut⟩
  rw [cut, tokensAt_gaps empty, same]

theorem clean_iff (idle : Idle front) (ends : after.EndsLine) :
    Clean (split (front ++ after)) ↔ Clean (split after) := by
  rcases idle.exists_gaps after ends with ⟨gaps, empty, _, cut⟩
  rw [cut, clean_append_iff, and_iff_right (clean_of_gaps empty)]

end Idle

/-- The other text has no faults and the same tokens at the same places. -/
structure Alike (place : Position) (text other : Text) : Prop where
  clean : Clean (split other)
  tokens_eq : tokensAt place (split other) = tokensAt place (split text)

namespace Alike

/-- A lexeme is kept. -/
theorem kept (alike : Alike (place.after lexeme.text) after other) (leads : lexeme.Leads after)
    (leadsOther : lexeme.Leads other) (clean : forall fault, lexeme.role ≠ .fault fault) :
    Alike place (lexeme.text ++ after) (lexeme.text ++ other) := by
  constructor
  · rw [split_of_leads leadsOther]
    intro piece member
    rcases List.mem_cons.mp member with rfl | later
    · exact clean
    · exact alike.clean piece later
  · rw [split_of_leads leads, split_of_leads leadsOther, tokensAt_cons, tokensAt_cons, alike.tokens_eq]

/-- Something is added to a part of a line that contributes nothing. -/
theorem idle (alike : Alike (place.after front) after (added ++ other)) (idleFront : Idle front)
    (idleAdded : Idle added) (idleBoth : Idle (front ++ added)) (ends : after.EndsLine)
    (otherEnds : other.EndsLine) :
    Alike place (front ++ after) (front ++ added ++ other) := by
  constructor
  · exact (idleBoth.clean_iff otherEnds).mpr ((idleAdded.clean_iff otherEnds).mp alike.clean)
  · calc
      tokensAt place (split (front ++ added ++ other)) =
          tokensAt ((place.after front).after added) (split other) := by
        rw [idleBoth.tokensAt_eq otherEnds, Position.after_append]
      _ = tokensAt (place.after front) (split (added ++ other)) :=
        (idleAdded.tokensAt_eq otherEnds _).symm
      _ = tokensAt (place.after front) (split after) := alike.tokens_eq
      _ = tokensAt place (split (front ++ after)) := (idleFront.tokensAt_eq ends place).symm

/-- Something is added in front of a line feed. -/
theorem lineFeed (alike : Alike (place.step '\n') after other) (idleAdded : Idle added) :
    Alike place (CodeUnit.ofChar '\n' :: after) (added ++ CodeUnit.ofChar '\n' :: other) := by
  let feed : Lexeme := ⟨.gap, [CodeUnit.ofChar '\n']⟩
  have empty : forall lexeme, lexeme ∈ [feed] -> lexeme.role = .gap := by
    intro lexeme member
    rw [List.mem_singleton.mp member]
  have cut : forall text, split (CodeUnit.ofChar '\n' :: text) = [feed] ++ split text :=
    fun text => split_of_leads (leads_blank (by decide) text)
  have ends := Text.endsLine_lineFeed other
  have sameLine : (place.after added).step '\n' = place.step '\n' := by
    rw [Position.step, Position.step, if_pos rfl, if_pos rfl, Position.line_after idleAdded.oneLine]
  constructor
  · rw [idleAdded.clean_iff ends, cut, clean_append_iff]
    exact ⟨clean_of_gaps empty, alike.clean⟩
  · rw [idleAdded.tokensAt_eq ends, cut, cut, tokensAt_gaps empty, tokensAt_gaps empty]
    change tokensAt ((place.after added).step '\n') _ = tokensAt (place.step '\n') _
    rw [sameLine, alike.tokens_eq]

end Alike

/-! ## Texts with additions -/

/-- A text is empty or a lexeme in front of a text. -/
@[elab_as_elim]
theorem split_induction {motive : Text -> Prop} (nil : motive [])
    (cons : forall (lexeme : Lexeme) (after : Text), lexeme.Leads after -> motive after ->
      motive (lexeme.text ++ after)) (text : Text) : motive text := by
  induction size : text.length using Nat.strongRecOn generalizing text with
  | ind bound ih =>
      cases text with
      | nil => exact nil
      | cons u rest =>
          rcases first_text u rest with ⟨tail, front, after, rfl⟩
          have leads : (first u (tail ++ after)).Leads after := ⟨u, tail, front, rfl⟩
          have shorter : after.length < bound := by
            rw [← size, List.length_cons, List.length_append]
            omega
          have whole := cons _ after leads (ih after.length shorter after rfl)
          rwa [front] at whole

/-- No lexeme but a line feed reaches beyond the end of a line that is added to. -/
def Unbroken (addition : Nat -> Text) (pieces : List (Position × Lexeme)) : Prop :=
  forall piece, piece ∈ pieces -> piece.2.text ≠ [CodeUnit.ofChar '\n'] -> forall line,
    piece.1.line ≤ line -> line < (piece.1.after piece.2.text).line -> addition line = []

/-- Additions that contribute nothing can be woven into a text if they break none of its lexemes. -/
theorem alike_weave {addition : Nat -> Text} (idle : forall line, Idle (addition line))
    (spaced : forall line, addition line = [] ∨ (addition line).head? = some (CodeUnit.ofChar ' '))
    {place : Position} {text : Text} (clean : Clean (split text))
    (unbroken : Unbroken addition (placed place (split text))) :
    Alike place text (text.weave addition place.line) := by
  induction text using split_induction generalizing place with
  | nil =>
      have cut := (idle place.line).clean_iff Text.endsLine_nil
      have tokens := (idle place.line).tokensAt_eq Text.endsLine_nil place
      rw [List.append_nil] at cut tokens
      exact ⟨cut.mpr clean, tokens⟩
  | cons lexeme after leads ih =>
      rw [split_of_leads leads] at clean unbroken
      have cleanFirst := clean lexeme List.mem_cons_self
      have unbrokenFirst := unbroken (place, lexeme) List.mem_cons_self
      have alike := @ih (place.after lexeme.text)
        (fun piece member => clean piece (List.mem_cons_of_mem _ member))
        (fun piece member => unbroken piece (List.mem_cons_of_mem _ member))
      by_cases isRemark : exists body, lexeme = remark body
      · -- The comment takes the addition in, so it does not stay the lexeme that it was.
        rcases isRemark with ⟨body, rfl⟩
        rcases (leads_remark_iff body after).mp leads with ⟨oneLine, ends⟩
        have idleFront := idle_remark oneLine
        have sameLine := Position.line_after idleFront.oneLine place
        rcases after.exists_weave_of_endsLine addition place.line ends with ⟨other, woven, otherEnds⟩
        have idleBoth : Idle ((remark body).text ++ addition place.line) :=
          idle_remark (List.not_mem_append oneLine (idle place.line).oneLine)
        rw [Text.weave_append place (fun line start finish => absurd start (by omega)), sameLine, woven,
          ← List.append_assoc]
        rw [sameLine, woven] at alike
        exact alike.idle idleFront (idle place.line) idleBoth ends otherEnds
      · by_cases isFeed : lexeme.text = [CodeUnit.ofChar '\n']
        · have nextLine : (place.step '\n').line = place.line + 1 := by rw [Position.step, if_pos rfl]
          rw [isFeed] at alike ⊢
          change Alike (place.step '\n') after (after.weave addition (place.step '\n').line) at alike
          rw [nextLine] at alike
          rw [List.singleton_append, Text.weave, if_pos rfl]
          exact alike.lineFeed (idle place.line)
        · -- No line that is added to ends in the lexeme, and what follows it is the same or a space.
          rw [Text.weave_append place (unbrokenFirst isFeed)]
          refine alike.kept leads (leads.congr cleanFirst ?_ (Text.head?_weave spaced _ after)) cleanFirst
          intro body same
          exact isRemark ⟨body, same⟩

end Lexeme

theorem Scan.tokens_run (text : Text) : (run text).tokens =
    Lexeme.tokensAt .start (Lexeme.split text) ++ [Token.finish (.after .start text)] :=
  rfl

end Monotype
