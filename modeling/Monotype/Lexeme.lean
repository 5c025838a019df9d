import Monotype.Numeral
import Monotype.Diagnostic

namespace Monotype

/-!
Cutting a text into lexemes.

Every unit of a text belongs to exactly one lexeme.  A lexeme is a gap (one
blank unit or one comment), a token, or a faulty piece.  `Lexeme.first` finds
the lexeme at the front of a text, and `Lexeme.split` repeats it: having found a
lexeme of `n` units it passes over the `n - 1` units that follow the first, so
the recursion is on the text itself.
-/

namespace Lexeme

/-- What a piece of text contributes. -/
inductive Role where
  | gap
  | token (kind : Token.Kind)
  | fault (fault : Fault)
  deriving DecidableEq

end Lexeme

/-- A piece of text with its role. -/
structure Lexeme where
  role : Lexeme.Role
  text : Text
  deriving DecidableEq

namespace Lexeme

/-- A word that starts with a digit is a numeral or a fault. -/
def ofNumeral (word : Text) : Lexeme where
  role := if (Numeral.value? word).isSome then .token .number else .fault (.invalidNumeral word)
  text := word

/-- A word that starts with a letter is reserved or a name. -/
def ofWord (word : Text) : Lexeme where
  role :=
    match Keyword.ofText? word with
    | some reserved => .token (.keyword reserved)
    | none => .token .identifier
  text := word

/-- A sign of one unit, or a unit that no token starts with. -/
def ofUnit (u : CodeUnit) : Lexeme where
  role :=
    match Symbol.ofUnit? u with
    | some sign => .token (.symbol sign)
    | none => .fault (.unexpectedUnit u)
  text := [u]

/-- The part of a text up to and including the first closing mark of a block
comment; `none` if there is no such mark. -/
def throughClose? : Text -> Option Text
  | [] => none
  | [_] => none
  | u :: v :: rest =>
      if u = '*' ∧ v = ')' then some [u, v]
      else (throughClose? (v :: rest)).map (u :: ·)

/-- A block comment with its opening mark, followed by the text `rest`.  Without
a closing mark it reaches to the end of the text and is a fault. -/
def ofBlock (opening rest : Text) : Lexeme :=
  match throughClose? rest with
  | some inner => ⟨.gap, opening ++ inner⟩
  | none => ⟨.fault .unterminatedComment, opening ++ rest⟩

/-- A piece that starts with neither blank, digit nor letter: a comment, a sign
of two units if there is one, otherwise a sign of one unit or a fault. -/
def ofMark (u : CodeUnit) : Text -> Lexeme
  | [] => ofUnit u
  | v :: rest =>
      if u = '-' ∧ v = '-' then ⟨.gap, u :: v :: rest.takeWhile (· ≠ '\n')⟩
      else if u = '(' ∧ v = '*' then ofBlock [u, v] rest
      else
        match Symbol.ofPair? u v with
        | some sign => ⟨.token (.symbol sign), [u, v]⟩
        | none => ofUnit u

/-- The lexeme at the front of the text `u :: rest`.  Words are as long as
possible, and of two signs the longer is taken. -/
def first (u : CodeUnit) (rest : Text) : Lexeme :=
  if u.isBlank then ⟨.gap, [u]⟩
  else if u.isDigit then ofNumeral (u :: rest.takeWhile CodeUnit.isWordUnit)
  else if u.isLetter then ofWord (u :: rest.takeWhile CodeUnit.isWordUnit)
  else ofMark u rest

/-- The lexemes of a text behind the first `covered` units, which belong to a
lexeme found before. -/
def splitAfter : (covered : Nat) -> Text -> List Lexeme
  | _, [] => []
  | covered + 1, _ :: rest => splitAfter covered rest
  | 0, u :: rest => first u rest :: splitAfter ((first u rest).text.length - 1) rest

def split (text : Text) : List Lexeme :=
  splitAfter 0 text

theorem throughClose?_isPrefix (text inner : Text) (closed : throughClose? text = some inner) :
    inner <+: text := by
  induction text generalizing inner with
  | nil => simp [throughClose?] at closed
  | cons u rest ih =>
      cases rest with
      | nil => simp [throughClose?] at closed
      | cons v rest =>
          simp only [throughClose?] at closed
          split at closed
          · cases closed
            exact ⟨rest, rfl⟩
          · rcases Option.map_eq_some_iff.mp closed with ⟨tail, found, rfl⟩
            rcases ih tail found with ⟨after, whole⟩
            exact ⟨after, by rw [List.cons_append, whole]⟩

theorem ofMark_text (u : CodeUnit) (rest : Text) :
    exists tail, (ofMark u rest).text = u :: tail ∧ tail <+: rest := by
  cases rest with
  | nil => exact ⟨[], rfl, List.nil_prefix⟩
  | cons v rest =>
      simp only [ofMark]
      split
      · exact ⟨v :: rest.takeWhile (· ≠ '\n'), rfl,
          List.cons_prefix_cons.mpr ⟨rfl, List.takeWhile_prefix _⟩⟩
      · split
        · simp only [ofBlock]
          split
          · next inner found =>
              exact ⟨v :: inner, rfl,
                List.cons_prefix_cons.mpr ⟨rfl, throughClose?_isPrefix rest inner found⟩⟩
          · exact ⟨v :: rest, rfl, List.prefix_rfl⟩
        · split
          · exact ⟨[v], rfl, List.cons_prefix_cons.mpr ⟨rfl, List.nil_prefix⟩⟩
          · exact ⟨[], rfl, List.nil_prefix⟩

/-- The first lexeme starts with the first unit and is a part of the text. -/
theorem first_text (u : CodeUnit) (rest : Text) :
    exists tail, (first u rest).text = u :: tail ∧ tail <+: rest := by
  simp only [first]
  split
  · exact ⟨[], rfl, List.nil_prefix⟩
  · split
    · exact ⟨rest.takeWhile CodeUnit.isWordUnit, rfl, List.takeWhile_prefix _⟩
    · split
      · exact ⟨rest.takeWhile CodeUnit.isWordUnit, rfl, List.takeWhile_prefix _⟩
      · exact ofMark_text u rest

theorem splitAfter_eq_drop (covered : Nat) (text : Text) :
    splitAfter covered text = split (text.drop covered) := by
  induction text generalizing covered with
  | nil => cases covered <;> rfl
  | cons u rest ih =>
      cases covered with
      | zero => rfl
      | succ covered =>
          rw [List.drop_succ_cons, ← ih covered]
          rfl

/-- Cutting off the first lexeme leaves a text that is cut in its turn. -/
theorem split_append (u : CodeUnit) (tail after : Text)
    (front : (first u (tail ++ after)).text = u :: tail) :
    split (u :: (tail ++ after)) = first u (tail ++ after) :: split after := by
  have behind : splitAfter tail.length (tail ++ after) = split after := by
    rw [splitAfter_eq_drop, List.drop_left]
  simp only [split, splitAfter, front, List.length_cons, Nat.add_sub_cancel]
  exact congrArg _ behind

/-- No unit is lost and none is added: the lexemes of a text make up the text. -/
theorem flatMap_text_split (text : Text) : (split text).flatMap Lexeme.text = text := by
  induction size : text.length using Nat.strongRecOn generalizing text with
  | ind bound ih =>
      cases text with
      | nil => rfl
      | cons u rest =>
          rcases first_text u rest with ⟨tail, front, after, whole⟩
          subst whole
          rw [split_append u tail after front, List.flatMap_cons, front,
            ih after.length (by simp at size; omega) after rfl]
          rfl

end Lexeme

end Monotype
