import Monotype.Numeral
import Monotype.Proofs.Term

namespace Monotype

/-!
# Reading decimal digits

The decimal digits of a number are a literal for that number.  They have no leading zero,
unless they are a single zero, so they are not taken for an octal literal.
-/

theorem CodeUnit.isDigit_iff (u : CodeUnit) : u.isDigit = true ↔ 48 ≤ u.toNat ∧ u.toNat ≤ 57 := by
  rw [isDigit, Bool.and_eq_true, decide_eq_true_eq, decide_eq_true_eq, UInt16.le_iff_toNat_le,
    UInt16.le_iff_toNat_le]
  rfl

namespace Text

/-- The digits of a positive number do not start with a zero. -/
theorem exists_cons_toDigits {n : Nat} (pos : 0 < n) :
    exists c rest, Nat.toDigits 10 n = c :: rest ∧ c.toNat ≠ 48 := by
  induction n using Nat.strongRecOn with
  | ind n ih =>
      by_cases small : n < 10
      · refine ⟨_, [], Nat.toDigits_of_lt_base small, ?_⟩
        rw [Nat.toNat_digitChar_of_lt_ten small]
        omega
      · rcases ih (n / 10) (by omega) (by omega) with ⟨c, rest, digits, nonzero⟩
        refine ⟨c, rest ++ [(n % 10).digitChar], ?_, nonzero⟩
        rw [Nat.toDigits_of_base_le (by decide) (by omega), digits, List.cons_append]

theorem isDigit_of_mem_ofNat {n : Nat} {u : CodeUnit} (member : u ∈ ofNat n) : u.isDigit = true :=
  u.isDigit_iff.mpr (range_of_mem_ofNat n u member)

theorem exists_cons_ofNat (n : Nat) : exists u rest, ofNat n = u :: rest ∧ u.isDigit = true ∧
    forall v, v ∈ rest -> v.isDigit = true := by
  have nonempty : ofNat n ≠ [] := by
    rw [ofNat, ne_eq, List.map_eq_nil_iff]
    exact Nat.toDigits_ne_nil
  rcases List.exists_cons_of_ne_nil nonempty with ⟨u, rest, shape⟩
  have digits : forall v, v ∈ u :: rest -> v.isDigit = true :=
    fun v member => isDigit_of_mem_ofNat (shape ▸ member)
  exact ⟨u, rest, shape, digits u List.mem_cons_self,
    fun v member => digits v (List.mem_cons_of_mem u member)⟩

end Text

namespace Numeral

theorem digit?_ofChar {c : Char} (digit : c.isDigit = true) :
    digit? 10 (CodeUnit.ofChar c) = some (c.toNat - '0'.toNat) := by
  rcases Text.toNat_ofChar_of_isDigit c digit with ⟨same, lower, upper⟩
  have isDigit : (CodeUnit.ofChar c).isDigit = true :=
    (CodeUnit.isDigit_iff _).mpr (by omega)
  have small : c.toNat - 48 < 10 := by omega
  rw [digit?, isDigit, if_pos rfl, same]
  exact if_pos (decide_eq_true small)

/-- Digits are read from left to right, as a number is built from its digits. -/
theorem extend?_map_ofChar {digits : List Char} (all : forall c, c ∈ digits -> c.isDigit = true)
    (high : Nat) :
    extend? 10 high (digits.map CodeUnit.ofChar) = some (Nat.ofDigitChars 10 digits high) := by
  induction digits generalizing high with
  | nil => rfl
  | cons c rest ih =>
      rw [List.map_cons, extend?, digit?_ofChar (all c List.mem_cons_self), Nat.ofDigitChars_cons,
        Nat.mul_comm 10 high]
      exact ih (fun other member => all other (List.mem_cons_of_mem c member)) _

theorem extend?_ofNat (n : Nat) : extend? 10 0 (Text.ofNat n) = some n := by
  rw [Text.ofNat, extend?_map_ofChar (Text.isDigit_of_mem n), Nat.ofDigitChars_ten_toDigits]

/-- The decimal digits of a number are a literal for it. -/
theorem value?_ofNat (n : Nat) : value? (Text.ofNat n) = some n := by
  have read := extend?_ofNat n
  rcases Nat.eq_zero_or_pos n with rfl | pos
  · rfl
  · rcases Text.exists_cons_toDigits pos with ⟨c, rest, digits, nonzero⟩
    have shape : Text.ofNat n = CodeUnit.ofChar c :: rest.map CodeUnit.ofChar := by
      rw [Text.ofNat, digits, List.map_cons]
    have notZero : CodeUnit.ofChar c ≠ '0' := by
      intro zero
      have digit := Text.isDigit_of_mem n c (digits ▸ List.mem_cons_self)
      have same := (Text.toNat_ofChar_of_isDigit c digit).1
      rw [zero] at same
      exact nonzero same.symm
    rw [shape] at read ⊢
    cases tail : rest.map CodeUnit.ofChar with
    | nil =>
        rw [tail] at read
        exact read
    | cons v more =>
        rw [tail] at read
        rw [value?, if_neg notZero]
        exact read

end Numeral

end Monotype
