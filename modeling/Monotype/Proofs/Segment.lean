import Monotype.Proofs.Addition
import Mathlib.Data.List.Induction

namespace Monotype

/-!
# Every unit of a text is accounted for

A text falls into segments: blanks, comments, tokens and faulty pieces.  `Segment` says what each of
them looks like and what may follow it, without a word on how it is found.  A word ends where no
unit continues it, and a sign of one unit stands only where it does not begin a mark of two.  With
these conditions a text has exactly one list of segments.  A scan reports the tokens and the faults
among them, in order and at places that can be counted in the text before each of them.
-/

/-! ## Places, counted -/

namespace Position

/-- The place behind a text: each line feed opens a line, and the units behind the last line feed
are the columns. -/
def behind (before : Text) : Position where
  line := 1 + before.count (CodeUnit.ofChar '\n')
  column := (before.reverse.takeWhile (fun u => u ≠ CodeUnit.ofChar '\n')).length

theorem after_start (before : Text) : start.after before = behind before := by
  induction before using List.reverseRecOn with
  | nil => rfl
  | append_singleton before u ih =>
      rw [after_append, ih]
      change (behind before).step u = _
      by_cases newLine : u = CodeUnit.ofChar '\n'
      · rw [step, if_pos newLine, behind, behind]
        simp [newLine, Nat.add_assoc]
      · rw [step, if_neg newLine, behind, behind]
        simp [newLine]

end Position

/-! ## Signs -/

namespace Symbol

/-- The text is a way to write the sign. -/
def Writes (sign : Symbol) (text : Text) : Prop :=
  text = sign.spelling ∨ sign = .equal ∧ text = "=="

theorem of_ite_eq_some {condition : Prop} [Decidable condition] {sign other : Symbol}
    {rest : Option Symbol} (found : (if condition then some sign else rest) = some other) :
    (condition ∧ sign = other) ∨ rest = some other := by
  by_cases holds : condition
  · rw [if_pos holds] at found
    exact Or.inl ⟨holds, Option.some.inj found⟩
  · rw [if_neg holds] at found
    exact Or.inr found

theorem ofUnit?_eq_some_iff (u : CodeUnit) (sign : Symbol) :
    ofUnit? u = some sign ↔ sign.Writes [u] := by
  constructor
  · intro found
    unfold ofUnit? at found
    repeat
      rcases of_ite_eq_some found with ⟨rfl, rfl⟩ | found
      · exact Or.inl rfl
    cases found
  · rintro (usual | ⟨rfl, doubled⟩)
    · cases sign <;> cases usual <;> rfl
    · cases doubled

theorem ofPair?_eq_some_iff (u v : CodeUnit) (sign : Symbol) :
    ofPair? u v = some sign ↔ sign.Writes [u, v] := by
  constructor
  · intro found
    unfold ofPair? at found
    rcases of_ite_eq_some found with ⟨⟨rfl, rfl⟩, rfl⟩ | found
    · exact Or.inl rfl
    rcases of_ite_eq_some found with ⟨⟨rfl, rfl⟩, rfl⟩ | found
    · exact Or.inl rfl
    rcases of_ite_eq_some found with ⟨⟨rfl, rfl⟩, rfl⟩ | found
    · exact Or.inl rfl
    rcases of_ite_eq_some found with ⟨⟨rfl, rfl⟩, rfl⟩ | found
    · exact Or.inr ⟨rfl, rfl⟩
    cases found
  · rintro (usual | ⟨rfl, doubled⟩)
    · cases sign <;> cases usual <;> rfl
    · cases doubled
      rfl

end Symbol

/-- A unit that starts neither a blank nor a word. -/
structure CodeUnit.IsMark (u : CodeUnit) : Prop where
  notBlank : u.isBlank = false
  notDigit : u.isDigit = false
  notLetter : u.isLetter = false

theorem Symbol.Writes.isMark {sign : Symbol} {u : CodeUnit} {rest : Text}
    (writes : sign.Writes (u :: rest)) : u.IsMark := by
  rcases writes with usual | ⟨rfl, doubled⟩
  · cases sign <;> cases usual <;> exact ⟨rfl, rfl, rfl⟩
  · cases doubled
    exact ⟨rfl, rfl, rfl⟩

theorem Keyword.spelling_of_ofText? {text : Text} {word : Keyword} (found : ofText? text = some word) :
    word.spelling = text :=
  of_decide_eq_true (List.find?_some (p := fun word : Keyword => decide (word.spelling = text)) found)

namespace Lexeme

variable {lexeme : Lexeme} {after : Text}

/-- The marks of two units: the openings of comments and the longer signs. -/
def pairs : List Text :=
  ["--", "(*", "<-", "<=", ">=", "=="]

theorem mem_pairs_iff (u v : CodeUnit) : [u, v] ∈ pairs ↔ Joins u v := by
  constructor
  · intro member
    simp only [pairs, List.mem_cons, List.not_mem_nil, or_false] at member
    rcases member with same | same | same | same | same | same <;> cases same
    · exact Or.inl ⟨rfl, rfl⟩
    · exact Or.inr (Or.inl ⟨rfl, rfl⟩)
    all_goals exact Or.inr (Or.inr rfl)
  · rintro (⟨rfl, rfl⟩ | ⟨rfl, rfl⟩ | pair)
    · decide
    · decide
    · rcases Option.isSome_iff_exists.mp pair with ⟨sign, found⟩
      rcases (Symbol.ofPair?_eq_some_iff u v sign).mp found with usual | ⟨_, doubled⟩
      · cases sign <;> cases usual <;> decide
      · cases doubled
        decide

/-- Every mark of two units starts with a sign. -/
theorem exists_writes_of_mem_pairs {u v : CodeUnit} (member : [u, v] ∈ pairs) :
    exists sign : Symbol, sign.Writes [u] := by
  simp only [pairs, List.mem_cons, List.not_mem_nil, or_false] at member
  rcases member with same | same | same | same | same | same <;> cases same
  · exact ⟨.minus, Or.inl rfl⟩
  · exact ⟨.leftParen, Or.inl rfl⟩
  · exact ⟨.less, Or.inl rfl⟩
  · exact ⟨.less, Or.inl rfl⟩
  · exact ⟨.greater, Or.inl rfl⟩
  · exact ⟨.equal, Or.inl rfl⟩

theorem pair_not_mem_pairs {v : CodeUnit} (isBlank : v.isBlank = true) (u : CodeUnit) : [u, v] ∉ pairs := by
  intro member
  simp only [pairs, List.mem_cons, List.not_mem_nil, or_false] at member
  rcases member with same | same | same | same | same | same <;> cases same <;> cases isBlank

/-! ## Segments -/

/-- A piece of text is a segment of its kind in front of the text `after`. -/
inductive Segment : Lexeme -> (after : Text) -> Prop where
  | blank {u : CodeUnit} (isBlank : u.isBlank = true) (after : Text) : Segment ⟨.gap, [u]⟩ after
  | remark {body after : Text} (oneLine : CodeUnit.ofChar '\n' ∉ body) (ends : after.EndsLine) :
      Segment ⟨.gap, '-' :: '-' :: body⟩ after
  | block {body : Text} (unclosed : ¬ closing <:+: body) (after : Text) :
      Segment ⟨.gap, '(' :: '*' :: (body ++ closing)⟩ after
  | keyword (word : Keyword) {after : Text} (edge : after.Edge) :
      Segment ⟨.token (.keyword word), word.spelling⟩ after
  | identifier {name after : Text} (isName : name.IsIdentifier) (edge : after.Edge) :
      Segment ⟨.token .identifier, name⟩ after
  | number {u : CodeUnit} {tail after : Text} (digit : u.isDigit = true)
      (units : forall v, v ∈ tail -> v.isWordUnit = true) (edge : after.Edge)
      (literal : (Numeral.value? (u :: tail)).isSome = true) :
      Segment ⟨.token .number, u :: tail⟩ after
  | pair {sign : Symbol} {u v : CodeUnit} (writes : sign.Writes [u, v]) (after : Text) :
      Segment ⟨.token (.symbol sign), [u, v]⟩ after
  | sign {sign : Symbol} {u : CodeUnit} {after : Text} (writes : sign.Writes [u])
      (alone : forall v, after.head? = some v -> [u, v] ∉ pairs) :
      Segment ⟨.token (.symbol sign), [u]⟩ after
  | invalidNumeral {u : CodeUnit} {tail after : Text} (digit : u.isDigit = true)
      (units : forall v, v ∈ tail -> v.isWordUnit = true) (edge : after.Edge)
      (noLiteral : Numeral.value? (u :: tail) = none) :
      Segment ⟨.fault (.invalidNumeral (u :: tail)), u :: tail⟩ after
  | unexpected {u : CodeUnit} (isMark : u.IsMark) (noSign : forall sign : Symbol, ¬ sign.Writes [u])
      (after : Text) : Segment ⟨.fault (.unexpectedUnit u), [u]⟩ after
  | unterminated {body : Text} (unclosed : ¬ closing <:+: body) :
      Segment ⟨.fault .unterminatedComment, '(' :: '*' :: body⟩ []

theorem Segment.text_ne_nil (segment : lexeme.Segment after) : lexeme.text ≠ [] := by
  cases segment with
  | keyword word edge => cases word <;> exact List.cons_ne_nil _ _
  | identifier isName edge =>
      rintro rfl
      exact isName
  | _ => exact List.cons_ne_nil _ _

theorem Segment.role_ne_endOfInput (segment : lexeme.Segment after) : lexeme.role ≠ .token .endOfInput := by
  intro isEnd
  cases segment <;> cases isEnd

/-! ## Segments are found -/

theorem first_of_isMark {u : CodeUnit} (isMark : u.IsMark) (rest : Text) : first u rest = ofMark u rest := by
  rw [first, isMark.notBlank, isMark.notDigit, isMark.notLetter]
  rfl

theorem leads_of_apart {u : CodeUnit} (isMark : u.IsMark)
    (alone : forall v, after.head? = some v -> [u, v] ∉ pairs) : (ofUnit u).Leads after := by
  refine ⟨u, [], rfl, ?_⟩
  rw [List.nil_append, first_of_isMark isMark]
  apply ofMark_of_apart
  intro v head joins
  exact alone v head ((mem_pairs_iff u v).mpr joins)

theorem throughClose?_eq_none_iff (text : Text) : throughClose? text = none ↔ ¬ closing <:+: text := by
  constructor
  · intro unclosed
    rintro ⟨front, rest, rfl⟩
    induction front with
    | nil => cases unclosed
    | cons u front ih =>
        apply ih
        cases shape : front ++ closing ++ rest with
        | nil => rfl
        | cons v more =>
            rw [List.cons_append, List.cons_append, shape, throughClose?] at unclosed
            split at unclosed
            · cases unclosed
            · exact Option.map_eq_none_iff.mp unclosed
  · intro missing
    cases found : throughClose? text with
    | none => rfl
    | some inner =>
        rcases exists_of_throughClose? found with ⟨body, rest, rfl, whole, _⟩
        exact absurd ⟨body, rest, whole.symm⟩ missing

theorem Segment.leads (segment : lexeme.Segment after) : lexeme.Leads after := by
  cases segment with
  | blank isBlank => exact leads_blank isBlank after
  | remark oneLine ends => exact (leads_remark_iff _ after).mpr ⟨oneLine, ends⟩
  | block unclosed => exact leads_block unclosed after
  | keyword word edge => exact leads_ofKeyword word edge
  | identifier isName edge => exact leads_identifier isName edge
  | number digit units edge literal =>
      have leads := leads_ofNumeral digit units edge
      rwa [ofNumeral, if_pos literal] at leads
  | @pair sign u v writes =>
      refine ⟨u, [v], rfl, ?_⟩
      rw [first_of_isMark writes.isMark]
      rcases writes with usual | ⟨rfl, doubled⟩
      · cases sign <;> cases usual <;> rfl
      · cases doubled
        rfl
  | sign writes alone =>
      have leads := leads_of_apart writes.isMark alone
      rwa [ofUnit, (Symbol.ofUnit?_eq_some_iff _ _).mpr writes] at leads
  | invalidNumeral digit units edge noLiteral =>
      have leads := leads_ofNumeral digit units edge
      rw [ofNumeral, noLiteral] at leads
      exact leads
  | @unexpected u isMark noSign =>
      have noUnit : Symbol.ofUnit? u = none := by
        cases found : Symbol.ofUnit? u with
        | none => rfl
        | some sign => exact absurd ((Symbol.ofUnit?_eq_some_iff u sign).mp found) (noSign sign)
      have alone : forall v, after.head? = some v -> [u, v] ∉ pairs := by
        intro v _ member
        rcases exists_writes_of_mem_pairs member with ⟨sign, writes⟩
        exact noSign sign writes
      have leads := leads_of_apart isMark alone
      rwa [ofUnit, noUnit] at leads
  | @unterminated body unclosed =>
      refine ⟨_, _, rfl, ?_⟩
      change ofBlock ['(', '*'] (body ++ []) = _
      rw [List.append_nil, ofBlock, (throughClose?_eq_none_iff body).mpr unclosed]
      rfl

theorem segment_of_ofMark {u : CodeUnit} (isMark : u.IsMark) {tail : Text}
    (shape : (ofMark u (tail ++ after)).text = u :: tail) :
    (ofMark u (tail ++ after)).Segment after := by
  cases tail with
  | nil =>
      rw [List.nil_append] at shape ⊢
      have apart := apart_of_ofMark_text shape
      rw [ofMark_of_apart apart, ofUnit]
      cases found : Symbol.ofUnit? u with
      | some sign =>
          refine .sign ((Symbol.ofUnit?_eq_some_iff u sign).mp found) ?_
          intro v head member
          exact apart v head ((mem_pairs_iff u v).mp member)
      | none =>
          refine .unexpected isMark ?_ after
          intro sign writes
          rw [(Symbol.ofUnit?_eq_some_iff u sign).mpr writes] at found
          cases found
  | cons v body =>
      simp only [List.cons_append, ofMark] at shape ⊢
      by_cases line : u = '-' ∧ v = '-'
      · simp only [if_pos line] at shape ⊢
        rcases line with ⟨rfl, rfl⟩
        have taken := (List.cons.inj (List.cons.inj shape).2).2
        rw [taken]
        have leads : (Lexeme.remark body).Leads after := ⟨_, _, rfl, congrArg Lexeme.remark taken⟩
        rcases (leads_remark_iff body after).mp leads with ⟨oneLine, ends⟩
        exact .remark oneLine ends
      · simp only [if_neg line] at shape ⊢
        by_cases opening : u = '(' ∧ v = '*'
        · simp only [if_pos opening, ofBlock] at shape ⊢
          rcases opening with ⟨rfl, rfl⟩
          cases closed : throughClose? (body ++ after) with
          | none =>
              rw [closed] at shape
              have ended : after = [] :=
                List.append_right_eq_self.mp (List.cons.inj (List.cons.inj shape).2).2
              subst ended
              rw [List.append_nil] at closed ⊢
              exact .unterminated ((throughClose?_eq_none_iff body).mp closed)
          | some inner =>
              rcases exists_of_throughClose? closed with ⟨inside, _, rfl, _, unclosed⟩
              exact .block unclosed after
        · simp only [if_neg opening] at shape ⊢
          cases found : Symbol.ofPair? u v with
          | none =>
              rw [found] at shape
              cases shape
          | some sign => exact .pair ((Symbol.ofPair?_eq_some_iff u v sign).mp found) after

theorem Leads.segment (leads : lexeme.Leads after) : lexeme.Segment after := by
  rcases leads with ⟨u, tail, shape, rfl⟩
  by_cases blank : u.isBlank = true
  · rw [first, if_pos blank]
    exact .blank blank after
  · by_cases digit : u.isDigit = true
    · simp only [first, if_neg blank, if_pos digit] at shape ⊢
      have taken := (List.cons.inj shape).2
      rcases (Text.takeWhile_append_eq_iff _ tail after).mp taken with ⟨units, edge⟩
      rw [taken, ofNumeral]
      by_cases literal : (Numeral.value? (u :: tail)).isSome = true
      · rw [if_pos literal]
        exact .number digit units edge literal
      · rw [if_neg literal]
        exact .invalidNumeral digit units edge (Option.not_isSome_iff_eq_none.mp literal)
    · by_cases letter : u.isLetter = true
      · simp only [first, if_neg blank, if_neg digit, if_pos letter] at shape ⊢
        have taken := (List.cons.inj shape).2
        rcases (Text.takeWhile_append_eq_iff _ tail after).mp taken with ⟨units, edge⟩
        rw [taken, ofWord]
        cases reserved : Keyword.ofText? (u :: tail) with
        | none => exact .identifier ⟨letter, units, (Keyword.ofText?_eq_none_iff _).mp reserved⟩ edge
        | some word =>
            rw [← Keyword.spelling_of_ofText? reserved]
            exact .keyword word edge
      · have isMark : u.IsMark :=
          ⟨Bool.eq_false_iff.mpr blank, Bool.eq_false_iff.mpr digit, Bool.eq_false_iff.mpr letter⟩
        rw [first_of_isMark isMark] at shape ⊢
        exact segment_of_ofMark isMark shape

/-! ## Texts in segments -/

/-- The segments make up the text, and each of them is one in front of those behind it. -/
structure Segments (segments : List Lexeme) (text : Text) : Prop where
  covers : segments.flatMap Lexeme.text = text
  each : forall front segment rest, segments = front ++ segment :: rest ->
    segment.text ≠ [] ∧ segment.Segment (rest.flatMap Lexeme.text)

/-- The tokens and the diagnostics of segments behind a text.  A gap gives nothing, a token gives its
kind and its text, and a faulty piece gives its fault; the place is where the text in front ends. -/
inductive Gives : (before : Text) -> List Lexeme -> List Token -> List Diagnostic -> Prop where
  | nil {before : Text} : Gives before [] [] []
  | gap {before text : Text} {rest : List Lexeme} {tokens : List Token} {diagnostics : List Diagnostic}
      (later : Gives (before ++ text) rest tokens diagnostics) :
      Gives before (⟨.gap, text⟩ :: rest) tokens diagnostics
  | token {before text : Text} {kind : Token.Kind} {rest : List Lexeme} {tokens : List Token}
      {diagnostics : List Diagnostic} (later : Gives (before ++ text) rest tokens diagnostics) :
      Gives before (⟨.token kind, text⟩ :: rest) (⟨kind, text, .behind before⟩ :: tokens) diagnostics
  | fault {before text : Text} {fault : Fault} {rest : List Lexeme} {tokens : List Token}
      {diagnostics : List Diagnostic} (later : Gives (before ++ text) rest tokens diagnostics) :
      Gives before (⟨.fault fault, text⟩ :: rest) tokens (⟨fault, .behind before⟩ :: diagnostics)

theorem chained_iff (segments : List Lexeme) : Chained [] segments ↔
    forall front segment rest, segments = front ++ segment :: rest ->
      segment.Leads (rest.flatMap Lexeme.text) := by
  induction segments with
  | nil =>
      refine iff_of_true trivial ?_
      intro front segment rest split
      simp at split
  | cons first others ih =>
      rw [Chained, List.append_nil, ih]
      constructor
      · rintro ⟨leads, later⟩ front segment rest split
        cases front with
        | nil =>
            cases split
            exact leads
        | cons _ front => exact later front segment rest (List.cons.inj split).2
      · intro each
        refine ⟨each [] first others rfl, ?_⟩
        intro front segment rest split
        exact each (first :: front) segment rest (congrArg _ split)

theorem chained_split (text : Text) : Chained [] (split text) := by
  induction text using split_induction with
  | nil => trivial
  | cons lexeme after leads ih =>
      rw [split_of_leads leads]
      refine ⟨?_, ih⟩
      rwa [List.append_nil, flatMap_text_split]

/-- A text has no other segments than its lexemes. -/
theorem segments_iff (segments : List Lexeme) (text : Text) :
    Segments segments text ↔ segments = split text := by
  constructor
  · rintro ⟨rfl, each⟩
    have chained : Chained [] segments := by
      rw [chained_iff]
      intro front segment rest split
      exact (each front segment rest split).2.leads
    have found := split_of_chained chained
    rw [List.append_nil] at found
    rw [found]
    exact (List.append_nil segments).symm
  · rintro rfl
    refine ⟨flatMap_text_split text, ?_⟩
    intro front segment rest split
    have found := ((chained_iff _).mp (chained_split text) front segment rest split).segment
    exact ⟨found.text_ne_nil, found⟩

/-- A placed lexeme stands behind those in front of it. -/
theorem exists_of_mem_placed {lexemes : List Lexeme} {place : Position} {piece : Position × Lexeme}
    (member : piece ∈ placed place lexemes) : exists front rest, lexemes = front ++ piece.2 :: rest ∧
      piece.1 = place.after (front.flatMap Lexeme.text) := by
  induction lexemes generalizing place with
  | nil => cases member
  | cons first others ih =>
      rcases List.mem_cons.mp member with rfl | later
      · exact ⟨[], others, rfl, rfl⟩
      · rcases ih later with ⟨front, rest, cut, isPlace⟩
        refine ⟨first :: front, rest, congrArg _ cut, ?_⟩
        rw [isPlace, List.flatMap_cons, Position.after_append]

/-- A token is a segment of its text and stands where its place says. -/
theorem exists_of_mem_tokensAt {text : Text} {token : Token} (member : token ∈ tokensAt .start (split text)) :
    exists front after, text = front ++ (token.text ++ after) ∧ token.position = .behind front ∧
      Segment ⟨.token token.kind, token.text⟩ after := by
  rcases List.mem_filterMap.mp member with ⟨⟨place, ⟨role, word⟩⟩, listed, contributes⟩
  rcases exists_of_mem_placed listed with ⟨front, rest, cut, rfl⟩
  cases role with
  | token kind =>
      cases contributes
      refine ⟨front.flatMap Lexeme.text, rest.flatMap Lexeme.text, ?_, Position.after_start _,
        ((chained_iff _).mp (chained_split text) front _ rest cut).segment⟩
      rw [← flatMap_text_split text, cut, List.flatMap_append, List.flatMap_cons]
  | _ => cases contributes

theorem kind_ne_of_mem_tokensAt {text : Text} {token : Token}
    (member : token ∈ tokensAt .start (split text)) : token.kind ≠ .endOfInput := by
  intro isEnd
  rcases exists_of_mem_tokensAt member with ⟨_, _, _, _, segment⟩
  exact segment.role_ne_endOfInput (congrArg _ isEnd)

/-- What placed lexemes contribute is what they give behind the text that ends at the first place. -/
theorem gives_placed (before : Text) (lexemes : List Lexeme) :
    Gives before lexemes (tokensAt (.behind before) lexemes)
      ((placed (.behind before) lexemes).filterMap (fun piece => piece.2.diagnostic? piece.1)) := by
  induction lexemes generalizing before with
  | nil => exact .nil
  | cons lexeme rest ih =>
      rcases lexeme with ⟨role, text⟩
      have later := ih (before ++ text)
      rw [← Position.after_start, Position.after_append, Position.after_start] at later
      cases role with
      | gap => exact .gap later
      | token kind => exact .token later
      | fault fault => exact .fault later

end Lexeme

namespace Scan

open Lexeme

/-- A text has exactly one list of segments.  The tokens and the diagnostics of the text are what
these segments give, in order and at the places where they start, and the only end token follows at
the end of the text. -/
theorem run_segments (text : Text) : exists segments tokens,
    Segments segments text ∧ (forall other, Segments other text -> other = segments) ∧
      Gives [] segments tokens (run text).diagnostics ∧
      (run text).tokens = tokens ++ [⟨.endOfInput, [], .behind text⟩] ∧
      (forall token, token ∈ tokens -> token.kind ≠ .endOfInput) := by
  refine ⟨split text, tokensAt .start (split text), (segments_iff _ text).mpr rfl, ?_, ?_, ?_, ?_⟩
  · intro other segments
    exact (segments_iff other text).mp segments
  · exact gives_placed [] (split text)
  · rw [tokens_run, Position.after_start]
    rfl
  · intro token member
    exact kind_ne_of_mem_tokensAt member

end Scan
end Monotype
