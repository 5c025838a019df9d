import Monotype.Proofs.Lexeme

namespace Monotype

/-!
# Comments and neighbours

A block comment reaches to the first closing mark, whatever follows it.  A comment up to the end of
its line takes in all that is added there.  Every other lexeme depends on at most one unit behind it,
and no lexeme is joined by a space.  So a text can be changed behind a lexeme, with a space or with
the unit that was there, and the lexeme stays the same.
-/

namespace Text

/-- A text that is empty or starts with a line feed. -/
def EndsLine (text : Text) : Prop :=
  forall u, text.head? = some u -> u = '\n'

theorem endsLine_nil : EndsLine [] := by
  intro u head
  cases head

theorem endsLine_lineFeed (rest : Text) : EndsLine (CodeUnit.ofChar '\n' :: rest) := by
  intro u head
  cases head
  rfl

end Text

namespace Lexeme

variable {lexeme : Lexeme} {after other : Text}

/-! ## Block comments -/

def closing : Text :=
  ['*', ')']

theorem throughClose?_closing {body : Text} (unclosed : ¬ closing <:+: body) (after : Text) :
    throughClose? (body ++ closing ++ after) = some (body ++ closing) := by
  induction body with
  | nil => rfl
  | cons u body ih =>
      have later := ih (fun inside => unclosed (List.infix_cons inside))
      cases body with
      | nil =>
          change throughClose? (u :: '*' :: ')' :: after) = _
          rw [throughClose?, if_neg (fun both => absurd both.2 (by decide))]
          rfl
      | cons v body =>
          have apart : ¬ (u = '*' ∧ v = ')') := by
            rintro ⟨rfl, rfl⟩
            exact unclosed ⟨[], body, rfl⟩
          change throughClose? (u :: v :: (body ++ closing ++ after)) = _
          rw [throughClose?, if_neg apart]
          exact congrArg _ later

theorem exists_of_throughClose? {text inner : Text} (closed : throughClose? text = some inner) :
    exists body after, inner = body ++ closing ∧ text = inner ++ after ∧ ¬ closing <:+: body := by
  induction text generalizing inner with
  | nil => cases closed
  | cons u rest ih =>
      cases rest with
      | nil => cases closed
      | cons v rest =>
          rw [throughClose?] at closed
          by_cases closes : u = '*' ∧ v = ')'
          · rw [if_pos closes] at closed
            cases closed
            rcases closes with ⟨rfl, rfl⟩
            exact ⟨[], rest, rfl, rfl, by decide⟩
          · rw [if_neg closes] at closed
            rcases Option.map_eq_some_iff.mp closed with ⟨tail, tailClosed, rfl⟩
            rcases ih tailClosed with ⟨body, after, rfl, whole, unclosed⟩
            refine ⟨u :: body, after, rfl, congrArg _ whole, ?_⟩
            intro inside
            rcases List.infix_cons_iff.mp inside with front | inside
            · rcases front with ⟨more, shape⟩
              rcases List.cons.inj shape with ⟨star, rfl⟩
              exact closes ⟨star.symm, (List.cons.inj whole).1⟩
            · exact unclosed inside

def block (body : Text) : Lexeme :=
  ⟨.gap, '(' :: '*' :: (body ++ closing)⟩

theorem leads_block {body : Text} (unclosed : ¬ closing <:+: body) (after : Text) :
    (block body).Leads after := by
  refine ⟨_, _, rfl, ?_⟩
  change ofBlock ['(', '*'] (body ++ closing ++ after) = _
  rw [ofBlock, throughClose?_closing unclosed]
  rfl

/-! ## Comments up to the end of a line -/

/-- A comment up to the end of its line. -/
def remark (body : Text) : Lexeme :=
  ⟨.gap, '-' :: '-' :: body⟩

theorem leads_remark_iff (body after : Text) :
    (remark body).Leads after ↔ CodeUnit.ofChar '\n' ∉ body ∧ after.EndsLine := by
  have taken : (remark body).Leads after ↔
      (body ++ after).takeWhile (fun v => v ≠ CodeUnit.ofChar '\n') = body := by
    constructor
    · rintro ⟨u, tail, shape, isFirst⟩
      cases shape
      exact (List.cons.inj (List.cons.inj (congrArg Lexeme.text isFirst)).2).2
    · intro taken
      refine ⟨_, _, rfl, ?_⟩
      change remark ((body ++ after).takeWhile (fun v => v ≠ CodeUnit.ofChar '\n')) = _
      rw [taken]
  rw [taken, Text.takeWhile_append_eq_iff]
  simp only [decide_eq_true_eq, decide_eq_false_iff_not, ne_eq, not_not, Text.EndsLine]
  refine and_congr_left' ?_
  constructor
  · intro different member
    exact different _ member rfl
  · intro missing v member same
    exact missing (same ▸ member)

/-! ## Other lexemes -/

/-- Two units that start one lexeme together. -/
def Joins (u v : CodeUnit) : Prop :=
  (u = '-' ∧ v = '-') ∨ (u = '(' ∧ v = '*') ∨ (Symbol.ofPair? u v).isSome = true

theorem ofPair?_of_plain (u : CodeUnit) {v : CodeUnit} (notDash : v ≠ '-') (notEqual : v ≠ '=') :
    Symbol.ofPair? u v = none := by
  rw [Symbol.ofPair?, if_neg (fun both => notDash both.2), if_neg (fun both => notEqual both.2),
    if_neg (fun both => notEqual both.2), if_neg (fun both => notEqual both.2)]

theorem not_joins_space (u : CodeUnit) : ¬ Joins u ' ' := by
  rintro (line | opening | pair)
  · exact absurd line.2 (by decide)
  · exact absurd opening.2 (by decide)
  · rw [ofPair?_of_plain u (by decide) (by decide)] at pair
    cases pair

theorem ofMark_of_apart {u : CodeUnit} {text : Text}
    (apart : forall v, text.head? = some v -> ¬ Joins u v) : ofMark u text = ofUnit u := by
  cases text with
  | nil => rfl
  | cons v rest =>
      have noJoin := apart v rfl
      rw [ofMark, if_neg (fun line => noJoin (Or.inl line)),
        if_neg (fun opening => noJoin (Or.inr (Or.inl opening)))]
      cases pair : Symbol.ofPair? u v with
      | none => rfl
      | some sign => exact absurd (Or.inr (Or.inr (by rw [pair]; rfl))) noJoin

theorem apart_of_ofMark_text {u : CodeUnit} {text : Text} (single : (ofMark u text).text = [u]) :
    forall v, text.head? = some v -> ¬ Joins u v := by
  intro v head joins
  cases text with
  | nil => cases head
  | cons w rest =>
      cases head
      rw [ofMark] at single
      split at single
      · cases single
      · next noLine =>
          split at single
          · rw [ofBlock] at single
            split at single <;> cases single
          · next noOpening =>
              split at single
              · cases single
              · next noPair =>
                  rcases joins with line | opening | pair
                  · exact noLine line
                  · exact noOpening opening
                  · rw [noPair] at pair
                    cases pair

/-- Of what follows a mark only the first unit counts, and a space counts as little as any. -/
theorem ofMark_congr {u : CodeUnit} {tail : Text} (shape : (ofMark u (tail ++ after)).text = u :: tail)
    (clean : forall fault, (ofMark u (tail ++ after)).role ≠ .fault fault)
    (notRemark : forall body, u :: tail ≠ (remark body).text)
    (head : other.head? = after.head? ∨ other.head? = some (CodeUnit.ofChar ' ')) :
    ofMark u (tail ++ other) = ofMark u (tail ++ after) := by
  cases tail with
  | nil =>
      rw [List.nil_append] at shape ⊢
      have apart := apart_of_ofMark_text shape
      have otherApart : forall v, other.head? = some v -> ¬ Joins u v := by
        intro v isHead
        rcases head with same | space
        · exact apart v (same ▸ isHead)
        · rw [space] at isHead
          cases isHead
          exact not_joins_space u
      rw [List.nil_append, ofMark_of_apart apart, ofMark_of_apart otherApart]
  | cons v body =>
      simp only [List.cons_append, ofMark] at shape clean ⊢
      by_cases line : u = '-' ∧ v = '-'
      · rcases line with ⟨rfl, rfl⟩
        exact absurd rfl (notRemark body)
      · simp only [if_neg line] at shape clean ⊢
        by_cases opening : u = '(' ∧ v = '*'
        · simp only [if_pos opening, ofBlock] at shape clean ⊢
          cases closed : throughClose? (body ++ after) with
          | none =>
              rw [closed] at clean
              exact absurd rfl (clean .unterminatedComment)
          | some inner =>
              rw [closed] at shape
              have same : inner = body := (List.cons.inj (List.cons.inj shape).2).2
              subst same
              rcases exists_of_throughClose? closed with ⟨inside, _, rfl, _, unclosed⟩
              rw [throughClose?_closing unclosed]
        · simp only [if_neg opening]

theorem first_congr {u : CodeUnit} {tail : Text} (shape : (first u (tail ++ after)).text = u :: tail)
    (clean : forall fault, (first u (tail ++ after)).role ≠ .fault fault)
    (notRemark : forall body, u :: tail ≠ (remark body).text)
    (head : other.head? = after.head? ∨ other.head? = some (CodeUnit.ofChar ' ')) :
    first u (tail ++ other) = first u (tail ++ after) := by
  -- A word ends in front of a unit that does not continue it, and a space is one.
  have word : (tail ++ after).takeWhile CodeUnit.isWordUnit = tail ->
      (tail ++ other).takeWhile CodeUnit.isWordUnit = tail := by
    intro taken
    rcases (Text.takeWhile_append_eq_iff _ tail after).mp taken with ⟨units, edge⟩
    refine Text.takeWhile_of_edge units ?_
    intro v isHead
    rcases head with same | space
    · exact edge v (same ▸ isHead)
    · rw [space] at isHead
      cases isHead
      rfl
  by_cases blank : u.isBlank = true
  · rw [first, if_pos blank, first, if_pos blank]
  · by_cases digit : u.isDigit = true
    · simp only [first, if_neg blank, if_pos digit] at shape ⊢
      have taken := (List.cons.inj shape).2
      rw [taken, word taken]
    · by_cases letter : u.isLetter = true
      · simp only [first, if_neg blank, if_neg digit, if_pos letter] at shape ⊢
        have taken := (List.cons.inj shape).2
        rw [taken, word taken]
      · simp only [first, if_neg blank, if_neg digit, if_neg letter] at shape clean ⊢
        exact ofMark_congr shape clean notRemark head

/-- A lexeme that is no fault and no comment up to the end of its line stays the first one if what
follows it is changed, but starts with the same unit or a space. -/
theorem Leads.congr (leads : lexeme.Leads after) (clean : forall fault, lexeme.role ≠ .fault fault)
    (notRemark : forall body, lexeme ≠ remark body)
    (head : other.head? = after.head? ∨ other.head? = some (CodeUnit.ofChar ' ')) :
    lexeme.Leads other := by
  rcases leads with ⟨u, tail, shape, rfl⟩
  refine ⟨u, tail, shape, first_congr shape clean ?_ head⟩
  intro body same
  cases same
  exact notRemark _ rfl

/-! ## Line feeds inside lexemes -/

/-- The lexeme is a block comment, closed or not. -/
def IsBlock (lexeme : Lexeme) : Prop :=
  [CodeUnit.ofChar '(', CodeUnit.ofChar '*'] <+: lexeme.text

instance (lexeme : Lexeme) : Decidable lexeme.IsBlock :=
  inferInstanceAs (Decidable (_ <+: _))

theorem isBlock_of_ofMark {u : CodeUnit} {rest : Text} (other : CodeUnit.ofChar '\n' ≠ u)
    (member : CodeUnit.ofChar '\n' ∈ (ofMark u rest).text) : (ofMark u rest).IsBlock := by
  have notUnit : CodeUnit.ofChar '\n' ∉ [u] := fun inside => other (List.mem_singleton.mp inside)
  cases rest with
  | nil => exact absurd member notUnit
  | cons v rest =>
      simp only [ofMark] at member ⊢
      by_cases line : u = '-' ∧ v = '-'
      · rw [if_pos line] at member
        have second : CodeUnit.ofChar '\n' ≠ v := by
          rw [line.2]
          decide
        have inside := List.mem_of_ne_of_mem second (List.mem_of_ne_of_mem other member)
        have different := List.all_eq_true.mp List.all_takeWhile _ inside
        exact absurd rfl (of_decide_eq_true different)
      · simp only [if_neg line] at member ⊢
        by_cases opening : u = '(' ∧ v = '*'
        · rw [if_pos opening, ofBlock]
          rcases opening with ⟨rfl, rfl⟩
          cases throughClose? rest with
          | none => exact ⟨rest, rfl⟩
          | some inner => exact ⟨inner, rfl⟩
        · rw [if_neg opening] at member
          cases pair : Symbol.ofPair? u v with
          | none =>
              rw [pair] at member
              exact absurd member notUnit
          | some sign =>
              rw [pair] at member
              cases List.mem_singleton.mp (List.mem_of_ne_of_mem other member)
              rw [ofPair?_of_plain u (by decide) (by decide)] at pair
              cases pair

/-- Only block comments reach over a line feed. -/
theorem isBlock_of_first {u : CodeUnit} {rest : Text}
    (notFeed : (first u rest).text ≠ [CodeUnit.ofChar '\n'])
    (member : CodeUnit.ofChar '\n' ∈ (first u rest).text) : (first u rest).IsBlock := by
  by_cases blank : u.isBlank = true
  · rw [first, if_pos blank] at notFeed member
    rw [List.mem_singleton.mp member] at notFeed
    exact absurd rfl notFeed
  · have other : CodeUnit.ofChar '\n' ≠ u := by
      rintro rfl
      exact blank rfl
    have notWord : CodeUnit.ofChar '\n' ∉ u :: rest.takeWhile CodeUnit.isWordUnit := by
      intro inside
      have wordUnit := List.all_eq_true.mp List.all_takeWhile _ (List.mem_of_ne_of_mem other inside)
      exact absurd wordUnit (by decide)
    by_cases digit : u.isDigit = true
    · rw [first, if_neg blank, if_pos digit] at member
      exact absurd member notWord
    · by_cases letter : u.isLetter = true
      · rw [first, if_neg blank, if_neg digit, if_pos letter] at member
        exact absurd member notWord
      · simp only [first, if_neg blank, if_neg digit, if_neg letter] at member ⊢
        exact isBlock_of_ofMark other member

end Lexeme

end Monotype
