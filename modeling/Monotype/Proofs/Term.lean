import Monotype.Term
import Mathlib.Data.List.Basic

namespace Monotype

/-!
# Keys tell terms apart

The first unit of a key tells the sort of its term.  A number can be read back
from its digits, and because digits contain no `#`, the last `#` in the key of a
binder stands between the name and the index, whatever the name contains.
-/

namespace Text

theorem toNat_ofChar_of_isDigit (c : Char) (digit : c.isDigit = true) :
    (CodeUnit.ofChar c).toNat = c.toNat ∧ 48 ≤ c.toNat ∧ c.toNat ≤ 57 := by
  have range : 48 ≤ c.toNat ∧ c.toNat ≤ 57 := Char.isDigit_iff_toNat.mp digit
  refine ⟨?_, range⟩
  rw [CodeUnit.ofChar, Nat.toUInt16, UInt16.toNat_ofNat']
  omega

theorem isDigit_of_mem (n : Nat) (c : Char) (member : c ∈ Nat.toDigits 10 n) : c.isDigit = true :=
  Nat.isDigit_of_mem_toDigits (by decide) (by decide) member

theorem map_ofNat_digits (n : Nat) :
    (ofNat n).map (fun u => Char.ofNat u.toNat) = Nat.toDigits 10 n := by
  rw [ofNat, List.map_map]
  calc
    (Nat.toDigits 10 n).map ((fun u : CodeUnit => Char.ofNat u.toNat) ∘ CodeUnit.ofChar)
        = (Nat.toDigits 10 n).map id := by
          apply List.map_congr_left
          intro c member
          rw [Function.comp_apply, (toNat_ofChar_of_isDigit c (isDigit_of_mem n c member)).1,
            Char.ofNat_toNat, id]
    _ = Nat.toDigits 10 n := List.map_id _

/-- A natural number can be read back from its digits. -/
theorem ofNat_injective {m n : Nat} (same : ofNat m = ofNat n) : m = n := by
  have digits_eq : Nat.toDigits 10 m = Nat.toDigits 10 n := by
    rw [← map_ofNat_digits m, same, map_ofNat_digits]
  rw [← Nat.ofDigitChars_ten_toDigits (n := m), digits_eq, Nat.ofDigitChars_ten_toDigits]

theorem range_of_mem_ofNat (n : Nat) (u : CodeUnit) (member : u ∈ ofNat n) :
    48 ≤ u.toNat ∧ u.toNat ≤ 57 := by
  rcases List.mem_map.mp member with ⟨c, digit, rfl⟩
  have range := toNat_ofChar_of_isDigit c (isDigit_of_mem n c digit)
  rw [range.1]
  exact range.2

/-- An integer can be read back from its digits and its sign. -/
theorem ofInt_injective {m n : Int} (same : ofInt m = ofInt n) : m = n := by
  have unsigned : forall k l : Nat, ofNat k ≠ CodeUnit.ofChar '-' :: ofNat l := by
    intro k l equal
    have range := range_of_mem_ofNat k (CodeUnit.ofChar '-') (equal ▸ List.mem_cons_self)
    exact absurd range.1 (by decide)
  cases m with
  | ofNat m =>
      cases n with
      | ofNat n => rw [ofNat_injective same]
      | negSucc n => exact absurd same (unsigned m (n + 1))
  | negSucc m =>
      cases n with
      | ofNat n => exact absurd same.symm (unsigned n (m + 1))
      | negSucc n =>
          have succ_eq := ofNat_injective (List.cons.inj same).2
          rw [Nat.succ.inj succ_eq]

theorem hash_not_mem_ofInt (n : Int) : CodeUnit.ofChar '#' ∉ ofInt n := by
  have unsigned : forall k : Nat, CodeUnit.ofChar '#' ∉ ofNat k := by
    intro k member
    exact absurd (range_of_mem_ofNat k _ member).1 (by decide)
  cases n with
  | ofNat n => exact unsigned n
  | negSucc n =>
      intro member
      rcases List.mem_cons.mp member with sign | digit
      · exact absurd sign (by decide)
      · exact unsigned (n + 1) digit

/-- What follows the last separator of a text is determined by the text. -/
theorem append_separator_inj {separator : CodeUnit} {front back other rest : Text}
    (last : separator ∉ back) (otherLast : separator ∉ rest)
    (same : front ++ separator :: back = other ++ separator :: rest) :
    front = other ∧ back = rest := by
  rcases List.append_eq_append_iff.mp same with ⟨middle, other_eq, tail_eq⟩ | ⟨middle, front_eq, tail_eq⟩
  · cases middle with
    | nil =>
        rw [List.append_nil] at other_eq
        exact ⟨other_eq.symm, (List.cons.inj tail_eq).2⟩
    | cons unit middle =>
        have back_eq := (List.cons.inj tail_eq).2
        exact absurd (back_eq ▸ List.mem_append_right middle List.mem_cons_self) last
  · cases middle with
    | nil =>
        rw [List.append_nil] at front_eq
        exact ⟨front_eq, (List.cons.inj tail_eq).2.symm⟩
    | cons unit middle =>
        have rest_eq := (List.cons.inj tail_eq).2
        exact absurd (rest_eq ▸ List.mem_append_right middle List.mem_cons_self) otherLast

end Text

namespace Term

theorem key_ground (type : Ground) : (ground type).key = 99 :: 58 :: type.name := rfl

theorem key_unknown (number : Int) (label : Text) :
    (unknown number label).key = 118 :: 58 :: Text.ofInt number := rfl

theorem key_binder (name : Text) (index : Int) :
    (binder name index).key = 110 :: 58 :: (name ++ CodeUnit.ofChar '#' :: Text.ofInt index) := by
  change [110, 58] ++ name ++ [CodeUnit.ofChar '#'] ++ Text.ofInt index = _
  simp

theorem eq_ground_of_key {term : Term} {type : Ground} (same : term.key = (ground type).key) :
    term = ground type := by
  cases term with
  | ground other =>
      revert same
      cases other <;> cases type <;> decide
  | unknown number label =>
      rw [key_unknown, key_ground, List.cons.injEq] at same
      exact absurd same.1 (by decide)
  | binder name index =>
      rw [key_binder, key_ground, List.cons.injEq] at same
      exact absurd same.1 (by decide)

theorem eq_unknown_of_key {term : Term} {number : Int} {label : Text}
    (same : term.key = (unknown number label).key) : exists other, term = unknown number other := by
  cases term with
  | ground type =>
      rw [key_unknown, key_ground, List.cons.injEq] at same
      exact absurd same.1 (by decide)
  | unknown other otherLabel =>
      rw [key_unknown, key_unknown, List.cons.injEq, List.cons.injEq] at same
      exact ⟨otherLabel, by rw [Text.ofInt_injective same.2.2]⟩
  | binder name index =>
      rw [key_binder, key_unknown, List.cons.injEq] at same
      exact absurd same.1 (by decide)

theorem eq_binder_of_key {term : Term} {name : Text} {index : Int}
    (same : term.key = (binder name index).key) : term = binder name index := by
  cases term with
  | ground type =>
      rw [key_binder, key_ground, List.cons.injEq] at same
      exact absurd same.1 (by decide)
  | unknown number label =>
      rw [key_binder, key_unknown, List.cons.injEq] at same
      exact absurd same.1 (by decide)
  | binder other otherIndex =>
      rw [key_binder, key_binder, List.cons.injEq, List.cons.injEq] at same
      have parts := Text.append_separator_inj (Text.hash_not_mem_ofInt otherIndex)
        (Text.hash_not_mem_ofInt index) same.2.2
      rw [parts.1, Text.ofInt_injective parts.2]

/-- Terms have one key exactly if they are the same type, unknowns with one number, or binders with one
name and one index, whatever units the names are made of. -/
theorem key_eq_key_iff (a b : Term) : a.key = b.key ↔
    (exists type, a = ground type ∧ b = ground type) ∨
    (exists number label other, a = unknown number label ∧ b = unknown number other) ∨
    (exists name index, a = binder name index ∧ b = binder name index) := by
  constructor
  · intro same
    cases b with
    | ground type => exact Or.inl ⟨type, eq_ground_of_key same, rfl⟩
    | unknown number label =>
        rcases eq_unknown_of_key same with ⟨other, rfl⟩
        exact Or.inr (Or.inl ⟨number, other, label, rfl, rfl⟩)
    | binder name index => exact Or.inr (Or.inr ⟨name, index, eq_binder_of_key same, rfl⟩)
  · rintro (⟨type, rfl, rfl⟩ | ⟨number, label, other, rfl, rfl⟩ | ⟨name, index, rfl, rfl⟩)
    · rfl
    · rfl
    · rfl

end Term
end Monotype
