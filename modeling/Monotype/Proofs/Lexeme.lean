import Monotype.Token.Scan
import Monotype.Proofs.Numeral

namespace Monotype

/-!
# Lexemes in front of a text

Whether a piece of text is the first lexeme depends on what follows it: a word must not be
continued, and a sign must not be the beginning of a longer one.  `Leads` says that a lexeme
is the first one in front of a given text, and `Chained` that each of several lexemes leads
the text of the later ones.  Then the text of these lexemes is cut into them.
-/

/-! ## Units and words -/

namespace CodeUnit

theorem isBlank_of_isWordUnit {u : CodeUnit} (wordUnit : u.isWordUnit = true) : u.isBlank = false := by
  rw [Bool.eq_false_iff]
  intro blank
  simp only [isBlank, Bool.or_eq_true, beq_iff_eq] at blank
  rcases blank with ((rfl | rfl) | rfl) | rfl <;> exact absurd wordUnit (by decide)

theorem isDigit_of_isLetter {u : CodeUnit} (letter : u.isLetter = true) : u.isDigit = false := by
  rw [Bool.eq_false_iff]
  intro digit
  have range := u.isDigit_iff.mp digit
  simp only [isLetter, Bool.or_eq_true, Bool.and_eq_true, decide_eq_true_eq,
    UInt16.le_iff_toNat_le] at letter
  have lower : (ofChar 'a').toNat = 97 := rfl
  have upper : (ofChar 'A').toNat = 65 := rfl
  omega

theorem isWordUnit_of_isDigit {u : CodeUnit} (digit : u.isDigit = true) : u.isWordUnit = true := by
  rw [isWordUnit, digit, Bool.or_true, Bool.true_or]

theorem isWordUnit_of_isLetter {u : CodeUnit} (letter : u.isLetter = true) : u.isWordUnit = true := by
  rw [isWordUnit, letter, Bool.true_or, Bool.true_or]

end CodeUnit

namespace Text

/-- A letter, then letters, digits and underscores, and no reserved word. -/
def IsIdentifier : Text -> Prop
  | [] => False
  | u :: tail => u.isLetter = true ∧ (forall v, v ∈ tail -> v.isWordUnit = true) ∧
      forall word : Keyword, u :: tail ≠ word.spelling

theorem IsIdentifier.isWordUnit {name : Text} (identifier : name.IsIdentifier) {u : CodeUnit}
    (member : u ∈ name) : u.isWordUnit = true := by
  cases name with
  | nil => cases member
  | cons v tail =>
      rcases List.mem_cons.mp member with rfl | later
      · exact CodeUnit.isWordUnit_of_isLetter identifier.1
      · exact identifier.2.1 u later

/-- A text that does not continue a word in front of it. -/
def Edge (text : Text) : Prop :=
  forall u, text.head? = some u -> u.isWordUnit = false

theorem edge_nil : Edge [] :=
  fun _ head => nomatch head

theorem edge_space (rest : Text) : Edge (' ' :: rest) :=
  fun _ head => Option.some.inj head ▸ rfl

theorem edge_rightParen (rest : Text) : Edge (')' :: rest) :=
  fun _ head => Option.some.inj head ▸ rfl

/-- A front part is all that is taken if what follows it stops the taking. -/
theorem takeWhile_append_eq_iff (p : CodeUnit -> Bool) (front after : Text) :
    (front ++ after).takeWhile p = front ↔
      (forall v, v ∈ front -> p v = true) ∧ forall u, after.head? = some u -> p u = false := by
  constructor
  · intro taken
    have all : forall v, v ∈ front -> p v = true := by
      rw [← taken]
      exact List.all_eq_true.mp List.all_takeWhile
    refine ⟨all, ?_⟩
    intro u head
    cases after with
    | nil => cases head
    | cons v rest =>
        cases head
        rw [List.takeWhile_append_of_pos all, List.append_right_eq_self, List.takeWhile_cons] at taken
        by_cases continued : p u = true
        · rw [if_pos continued] at taken
          cases taken
        · exact Bool.eq_false_iff.mpr continued
  · rintro ⟨all, stops⟩
    rw [List.takeWhile_append_of_pos all]
    cases after with
    | nil => rw [List.takeWhile_nil, List.append_nil]
    | cons u rest => rw [List.takeWhile_cons_of_neg (ne_true_of_eq_false (stops u rfl)), List.append_nil]

theorem takeWhile_of_edge {word after : Text} (units : forall v, v ∈ word -> v.isWordUnit = true)
    (edge : Edge after) : (word ++ after).takeWhile CodeUnit.isWordUnit = word :=
  (takeWhile_append_eq_iff _ word after).mpr ⟨units, edge⟩

end Text

theorem Keyword.ofText?_eq_none_iff (text : Text) :
    ofText? text = none ↔ forall word : Keyword, text ≠ word.spelling := by
  rw [ofText?, List.find?_eq_none]
  constructor
  · intro none word same
    exact none word (mem_all word) (decide_eq_true same.symm)
  · intro different word _ same
    exact different word (of_decide_eq_true same).symm

namespace Lexeme

variable {lexeme : Lexeme} {after : Text}

/-! ## Leading lexemes -/

/-- The lexeme is the first one in front of the text `after`. -/
def Leads (lexeme : Lexeme) (after : Text) : Prop :=
  exists u tail, lexeme.text = u :: tail ∧ first u (tail ++ after) = lexeme

theorem split_of_leads (leads : lexeme.Leads after) :
    split (lexeme.text ++ after) = lexeme :: split after := by
  rcases leads with ⟨u, tail, shape, isFirst⟩
  have front : (first u (tail ++ after)).text = u :: tail := by rw [isFirst, shape]
  rw [shape, List.cons_append, split_append u tail after front, isFirst]

theorem leads_blank {u : CodeUnit} (blank : u.isBlank = true) (after : Text) :
    Leads ⟨.gap, [u]⟩ after :=
  ⟨u, [], rfl, if_pos blank⟩

def space : Lexeme :=
  ⟨.gap, [CodeUnit.ofChar ' ']⟩

theorem leads_space (after : Text) : space.Leads after :=
  leads_blank (by decide) after

theorem leads_ofWord {u : CodeUnit} {tail : Text} (letter : u.isLetter = true)
    (units : forall v, v ∈ tail -> v.isWordUnit = true) (edge : after.Edge) :
    (ofWord (u :: tail)).Leads after := by
  refine ⟨u, tail, rfl, ?_⟩
  rw [first, CodeUnit.isBlank_of_isWordUnit (CodeUnit.isWordUnit_of_isLetter letter),
    CodeUnit.isDigit_of_isLetter letter, letter, Text.takeWhile_of_edge units edge]
  rfl

theorem leads_ofNumeral {u : CodeUnit} {tail : Text} (digit : u.isDigit = true)
    (units : forall v, v ∈ tail -> v.isWordUnit = true) (edge : after.Edge) :
    (ofNumeral (u :: tail)).Leads after := by
  refine ⟨u, tail, rfl, ?_⟩
  rw [first, CodeUnit.isBlank_of_isWordUnit (CodeUnit.isWordUnit_of_isDigit digit), digit,
    Text.takeWhile_of_edge units edge]
  rfl

def ofKeyword (word : Keyword) : Lexeme :=
  ⟨.token (.keyword word), word.spelling⟩

def ofSymbol (sign : Symbol) : Lexeme :=
  ⟨.token (.symbol sign), sign.spelling⟩

theorem leads_ofKeyword (word : Keyword) (edge : after.Edge) : (ofKeyword word).Leads after := by
  have same : ofKeyword word = ofWord word.spelling := by
    rw [ofKeyword, ofWord, Keyword.ofText?_spelling]
  have shape : exists u tail, word.spelling = u :: tail ∧ u.isLetter = true ∧
      tail.all CodeUnit.isWordUnit = true := by
    cases word <;> exact ⟨_, _, rfl, by decide, by decide⟩
  rcases shape with ⟨u, tail, spelling, letter, units⟩
  rw [same, spelling]
  exact leads_ofWord letter (List.all_eq_true.mp units) edge

theorem leads_identifier {name : Text} (identifier : name.IsIdentifier) (edge : after.Edge) :
    Leads ⟨.token .identifier, name⟩ after := by
  cases name with
  | nil => exact identifier.elim
  | cons u tail =>
      rcases identifier with ⟨letter, units, unreserved⟩
      have same : ofWord (u :: tail) = ⟨.token .identifier, u :: tail⟩ := by
        rw [ofWord, (Keyword.ofText?_eq_none_iff _).mpr unreserved]
      rw [← same]
      exact leads_ofWord letter units edge

theorem leads_ofNat (n : Nat) (edge : after.Edge) : Leads ⟨.token .number, Text.ofNat n⟩ after := by
  have same : ofNumeral (Text.ofNat n) = ⟨.token .number, Text.ofNat n⟩ := by
    rw [ofNumeral, Numeral.value?_ofNat]
    rfl
  rcases Text.exists_cons_ofNat n with ⟨u, tail, shape, digit, digits⟩
  rw [shape] at same ⊢
  rw [← same]
  exact leads_ofNumeral digit (fun v member => CodeUnit.isWordUnit_of_isDigit (digits v member)) edge

/-- Every sign ends in front of a space. -/
theorem leads_ofSymbol (sign : Symbol) (rest : Text) : (ofSymbol sign).Leads (' ' :: rest) := by
  cases sign <;> exact ⟨_, _, rfl, rfl⟩

theorem leads_rightParen (after : Text) : (ofSymbol .rightParen).Leads after := by
  refine ⟨CodeUnit.ofChar ')', [], rfl, ?_⟩
  cases after <;> rfl

/-- A parenthesis in front of a star would open a comment. -/
theorem leads_leftParen {u : CodeUnit} (notStar : u ≠ '*') (rest : Text) :
    (ofSymbol .leftParen).Leads (u :: rest) := by
  refine ⟨CodeUnit.ofChar '(', [], rfl, ?_⟩
  change ofMark '(' (u :: rest) = _
  rw [ofMark, if_neg (fun both => absurd both.1 (by decide)), if_neg (fun both => notStar both.2)]
  rfl

/-! ## Several lexemes -/

/-- Each lexeme leads the text of the later ones and of what follows them. -/
def Chained (after : Text) : List Lexeme -> Prop
  | [] => True
  | lexeme :: rest => lexeme.Leads (rest.flatMap Lexeme.text ++ after) ∧ Chained after rest

/-- The text of chained lexemes is cut into them. -/
theorem split_of_chained {lexemes : List Lexeme} (chained : Chained after lexemes) :
    split (lexemes.flatMap Lexeme.text ++ after) = lexemes ++ split after := by
  induction lexemes with
  | nil => rfl
  | cons lexeme rest ih =>
      rw [List.flatMap_cons, List.append_assoc, split_of_leads chained.1, ih chained.2, List.cons_append]

theorem chained_append_iff (first second : List Lexeme) :
    Chained after (first ++ second) ↔
      Chained (second.flatMap Lexeme.text ++ after) first ∧ Chained after second := by
  induction first with
  | nil => simp [Chained]
  | cons lexeme rest ih =>
      rw [List.cons_append, Chained, Chained, ih, List.flatMap_append, List.append_assoc, and_assoc]

theorem chained_spaced (word : Keyword) (after : Text) : Chained after [space, ofKeyword word, space] :=
  ⟨leads_space _, leads_ofKeyword word (Text.edge_space _), leads_space _, trivial⟩

/-! ## Lexemes of a text -/

theorem exists_first_of_mem {text : Text} {covered : Nat} (member : lexeme ∈ splitAfter covered text) :
    exists u rest, lexeme = first u rest := by
  induction text generalizing covered with
  | nil => cases covered <;> cases member
  | cons u rest ih =>
      cases covered with
      | zero =>
          rcases List.mem_cons.mp member with rfl | later
          · exact ⟨u, rest, rfl⟩
          · exact ih later
      | succ covered => exact ih member

theorem ofMark_role_ne (u : CodeUnit) (rest : Text) : (ofMark u rest).role ≠ .token .identifier := by
  have unit : (ofUnit u).role ≠ .token .identifier := by
    rw [ofUnit]
    cases Symbol.ofUnit? u <;> intro same <;> cases same
  cases rest with
  | nil => exact unit
  | cons v rest =>
      rw [ofMark]
      split
      · intro same
        cases same
      · split
        · rw [ofBlock]
          split <;> intro same <;> cases same
        · split
          · intro same
            cases same
          · exact unit

/-- Names in a text are identifiers. -/
theorem isIdentifier_of_mem_split {text : Text} (member : lexeme ∈ split text)
    (isName : lexeme.role = .token .identifier) : lexeme.text.IsIdentifier := by
  rcases exists_first_of_mem member with ⟨u, rest, rfl⟩
  rw [first] at isName ⊢
  split at isName
  · cases isName
  · next notBlank =>
      split at isName
      · next digit =>
          rw [ofNumeral] at isName
          split at isName <;> cases isName
      · next notDigit =>
          split at isName
          · next letter =>
              rw [if_neg notBlank, if_neg notDigit, if_pos letter]
              refine ⟨letter, List.all_eq_true.mp List.all_takeWhile, ?_⟩
              apply (Keyword.ofText?_eq_none_iff _).mp
              rw [ofWord] at isName
              split at isName
              · cases isName
              · next unreserved => exact unreserved
          · exact absurd isName (ofMark_role_ne u rest)

end Lexeme

/-! ## Tokens of a text -/

/-- A token without its place. -/
def Token.spelling (token : Token) : Token.Kind × Text :=
  (token.kind, token.text)

namespace Lexeme

/-- The token that a lexeme contributes, without its place. -/
def spelling? (lexeme : Lexeme) : Option (Token.Kind × Text) :=
  match lexeme.role with
  | .token kind => some (kind, lexeme.text)
  | _ => none

theorem spelling?_token (kind : Token.Kind) (text : Text) :
    spelling? ⟨.token kind, text⟩ = some (kind, text) :=
  rfl

theorem spelling?_space : space.spelling? = none :=
  rfl

theorem map_spelling_token? (place : Position) (lexeme : Lexeme) :
    (lexeme.token? place).map Token.spelling = lexeme.spelling? := by
  rcases lexeme with ⟨role, text⟩
  cases role <;> rfl

theorem map_spelling_placed (place : Position) (lexemes : List Lexeme) :
    ((placed place lexemes).filterMap (fun piece => piece.2.token? piece.1)).map Token.spelling =
      lexemes.filterMap spelling? := by
  induction lexemes generalizing place with
  | nil => rfl
  | cons lexeme rest ih =>
      rw [placed, List.filterMap_cons, List.filterMap_cons, ← map_spelling_token? place lexeme]
      cases lexeme.token? place with
      | none => exact ih _
      | some token => exact congrArg _ (ih _)

theorem diagnostics_placed {lexemes : List Lexeme}
    (clean : forall lexeme, lexeme ∈ lexemes -> forall fault, lexeme.role ≠ .fault fault) (place : Position) :
    (placed place lexemes).filterMap (fun piece => piece.2.diagnostic? piece.1) = [] := by
  induction lexemes generalizing place with
  | nil => rfl
  | cons lexeme rest ih =>
      have none : lexeme.diagnostic? place = none := by
        have noFault := clean lexeme List.mem_cons_self
        rw [diagnostic?]
        split
        · next fault isFault => exact absurd isFault (noFault fault)
        · rfl
      rw [placed, List.filterMap_cons, none]
      exact ih (fun later member => clean later (List.mem_cons_of_mem lexeme member)) _

end Lexeme

namespace Scan

/-- The tokens of a text are its lexemes that are tokens, and an end token. -/
theorem exists_tokens (text : Text) :
    exists body, (run text).tokens = body ++ [Token.finish (.after .start text)] ∧
      body.map Token.spelling = (Lexeme.split text).filterMap Lexeme.spelling? :=
  ⟨_, rfl, Lexeme.map_spelling_placed .start (Lexeme.split text)⟩

/-- Names among the tokens of a text are identifiers. -/
theorem isIdentifier_of_mem_tokens {text : Text} {token : Token} (member : token ∈ (run text).tokens)
    (isName : token.kind = .identifier) : token.text.IsIdentifier := by
  rcases exists_tokens text with ⟨body, tokens, spelled⟩
  rw [tokens, List.mem_append, List.mem_singleton] at member
  rcases member with inBody | rfl
  · have listed : token.spelling ∈ (Lexeme.split text).filterMap Lexeme.spelling? :=
      spelled ▸ List.mem_map_of_mem inBody
    rcases List.mem_filterMap.mp listed with ⟨lexeme, inSplit, contributes⟩
    rw [Lexeme.spelling?] at contributes
    split at contributes
    · next kind role =>
        rcases Prod.mk.inj (Option.some.inj contributes) with ⟨sameKind, sameText⟩
        rw [← sameText]
        exact Lexeme.isIdentifier_of_mem_split inSplit (role.trans (congrArg _ (sameKind.trans isName)))
    · cases contributes
  · cases isName

end Scan

end Monotype
