import Monotype.Proofs.Numeral
import Mathlib.Data.Nat.Digits.Defs

namespace Monotype
namespace Numeral

/-!
# Literals and their numbers

A text is read as an integer literal exactly if it has one of four forms, and the number is the
positional value of its digits.  The forms are stated apart from the reading: the digits are listed
in alphabets, a digit is worth its place there, and the first units of a text belong to one form
only.  So every way to write a number in one of the bases is read as this number, whatever the case
of its letters and however many zeros stand in front.
-/

/-! ## Digits -/

/-- The digits of all bases, with the letters in either case. -/
def alphabet : Text := "0123456789abcdefABCDEF"

/-- What a digit is worth: its place in the alphabet, where a capital letter has that of the small
one. -/
def worth (u : CodeUnit) : Nat :=
  if alphabet.idxOf u < 16 then alphabet.idxOf u else alphabet.idxOf u - 6

def digitsOf (base : Nat) : Text :=
  alphabet.filter (fun u => worth u < base)

/-- The number that digits denote in a base; the last digit counts once. -/
def positional (base : Nat) (digits : Text) : Nat :=
  Nat.ofDigits base (digits.map worth).reverse

theorem mem_digitsOf {base : Nat} {u : CodeUnit} :
    u ∈ digitsOf base ↔ u ∈ alphabet ∧ worth u < base := by
  rw [digitsOf, List.mem_filter, decide_eq_true_eq]

example : digitsOf 2 = ("01" : Text) ∧ digitsOf 8 = ("01234567" : Text) ∧
    digitsOf 10 = ("0123456789" : Text) ∧ digitsOf 16 = alphabet := by
  decide +kernel

theorem alphabet_eq :
    alphabet = (List.range' 48 10 ++ List.range' 97 6 ++ List.range' 65 6).map UInt16.ofNat := by
  decide +kernel

theorem mem_alphabet_of_range {u : CodeUnit} (range : (48 ≤ u.toNat ∧ u.toNat ≤ 57) ∨
    (97 ≤ u.toNat ∧ u.toNat ≤ 102) ∨ (65 ≤ u.toNat ∧ u.toNat ≤ 70)) : u ∈ alphabet := by
  rw [alphabet_eq, List.mem_map]
  refine ⟨u.toNat, ?_, UInt16.ofNat_toNat⟩
  simp only [List.mem_append, List.mem_range'_1]
  omega

theorem digit?_of_mem {u : CodeUnit} (member : u ∈ alphabet) : digit? 16 u = some (worth u) := by
  have each : alphabet.all (fun u => digit? 16 u = some (worth u)) = true := by decide +kernel
  exact of_decide_eq_true (List.all_eq_true.mp each u member)

theorem between_iff (low high u : CodeUnit) :
    (decide (low ≤ u) && decide (u ≤ high)) = true ↔
      low.toNat ≤ u.toNat ∧ u.toNat ≤ high.toNat := by
  rw [Bool.and_eq_true, decide_eq_true_eq, decide_eq_true_eq, UInt16.le_iff_toNat_le,
    UInt16.le_iff_toNat_le]

theorem digit?_of_not_mem {u : CodeUnit} (outside : u ∉ alphabet) (base : Nat) :
    digit? base u = none := by
  have ranges := mt mem_alphabet_of_range outside
  rw [not_or, not_or] at ranges
  rw [digit?, if_neg, if_neg, if_neg]
  · rfl
  · exact mt (between_iff 'A' 'F' u).mp ranges.2.2
  · exact mt (between_iff 'a' 'f' u).mp ranges.2.1
  · exact mt u.isDigit_iff.mp ranges.1

theorem digit?_eq_filter {base : Nat} (small : base ≤ 16) (u : CodeUnit) :
    digit? base u = (digit? 16 u).filter (fun d => d < base) := by
  rw [digit?, digit?, Option.filter_filter]
  congr 1
  funext d
  by_cases within : d < base
  · simp [within, Nat.lt_of_lt_of_le within small]
  · simp [within]

theorem digit?_eq_some_iff {base : Nat} (small : base ≤ 16) (u : CodeUnit) (d : Nat) :
    digit? base u = some d ↔ u ∈ digitsOf base ∧ worth u = d := by
  rw [digit?_eq_filter small, Option.filter_eq_some_iff, decide_eq_true_eq, mem_digitsOf]
  by_cases member : u ∈ alphabet
  · rw [digit?_of_mem member, Option.some_inj]
    constructor
    · rintro ⟨rfl, within⟩
      exact ⟨⟨member, within⟩, rfl⟩
    · rintro ⟨⟨_, within⟩, rfl⟩
      exact ⟨rfl, within⟩
  · rw [digit?_of_not_mem member]
    simp [member]

/-! ## Numbers -/

theorem positional_cons (base : Nat) (u : CodeUnit) (digits : Text) :
    positional base (u :: digits) = positional base digits + base ^ digits.length * worth u := by
  rw [positional, List.map_cons, Nat.ofDigits_reverse_cons, List.length_map, positional]

/-- Reading on from a number moves it up by the digits that follow. -/
theorem extend?_eq_some_iff {base : Nat} (small : base ≤ 16) (high : Nat) (digits : Text) (n : Nat) :
    extend? base high digits = some n ↔
      digits ⊆ digitsOf base ∧ high * base ^ digits.length + positional base digits = n := by
  induction digits generalizing high with
  | nil => simp [extend?, positional]
  | cons u rest ih =>
      have moved : (high * base + worth u) * base ^ rest.length + positional base rest =
          high * base ^ (u :: rest).length + positional base (u :: rest) := by
        rw [positional_cons, List.length_cons, pow_succ]
        ring
      rw [List.cons_subset, extend?]
      cases digit : digit? base u with
      | none =>
          have outside : u ∉ digitsOf base := by
            intro member
            rw [(digit?_eq_some_iff small u (worth u)).mpr ⟨member, rfl⟩] at digit
            cases digit
          simp [outside]
      | some d =>
          rcases (digit?_eq_some_iff small u d).mp digit with ⟨member, rfl⟩
          simp only [ih, moved, member, true_and]

/-- One or more digits of a base are read as the number that they denote. -/
theorem positional?_eq_some_iff {base : Nat} (small : base ≤ 16) (digits : Text) (n : Nat) :
    positional? base digits = some n ↔
      digits ≠ [] ∧ digits ⊆ digitsOf base ∧ positional base digits = n := by
  cases digits with
  | nil => simp [positional?]
  | cons u rest =>
      rw [positional?, extend?_eq_some_iff small, Nat.zero_mul, Nat.zero_add]
      simp

/-! ## The four forms -/

/-- The literals and the numbers that they denote. -/
inductive Literal : Text -> Nat -> Prop where
  | hexadecimal {mark : CodeUnit} {digits : Text} (marked : mark = 'x' ∨ mark = 'X')
      (nonempty : digits ≠ []) (within : digits ⊆ digitsOf 16) :
      Literal ('0' :: mark :: digits) (positional 16 digits)
  | binary {mark : CodeUnit} {digits : Text} (marked : mark = 'b' ∨ mark = 'B')
      (nonempty : digits ≠ []) (within : digits ⊆ digitsOf 2) :
      Literal ('0' :: mark :: digits) (positional 2 digits)
  | octal {digits : Text} (nonempty : digits ≠ []) (within : digits ⊆ digitsOf 8) :
      Literal ('0' :: digits) (positional 8 digits)
  | zero : Literal "0" 0
  | decimal {first : CodeUnit} {rest : Text} (leading : first ≠ '0')
      (within : first :: rest ⊆ digitsOf 10) :
      Literal (first :: rest) (positional 10 (first :: rest))

theorem literal_of_value? {text : Text} {n : Nat} (read : value? text = some n) : Literal text n := by
  have decimal (u : CodeUnit) (rest : Text) (leading : u ≠ '0')
      (digits : positional? 10 (u :: rest) = some n) : Literal (u :: rest) n := by
    rcases (positional?_eq_some_iff (by decide) (u :: rest) n).mp digits with ⟨_, within, rfl⟩
    exact .decimal leading within
  match text with
  | [] => cases read
  | [u] =>
      by_cases zero : u = '0'
      · subst zero
        cases read
        exact .zero
      · exact decimal u [] zero read
  | u :: v :: rest =>
      rw [value?] at read
      by_cases zero : u = '0'
      · rw [if_pos zero] at read
        subst zero
        by_cases hexadecimal : v = 'x' ∨ v = 'X'
        · rw [if_pos hexadecimal, positional?_eq_some_iff (by decide)] at read
          rcases read with ⟨nonempty, within, rfl⟩
          exact .hexadecimal hexadecimal nonempty within
        · rw [if_neg hexadecimal] at read
          by_cases binary : v = 'b' ∨ v = 'B'
          · rw [if_pos binary, positional?_eq_some_iff (by decide)] at read
            rcases read with ⟨nonempty, within, rfl⟩
            exact .binary binary nonempty within
          · rw [if_neg binary, positional?_eq_some_iff (by decide)] at read
            rcases read with ⟨nonempty, within, rfl⟩
            exact .octal nonempty within
      · rw [if_neg zero] at read
        exact decimal u (v :: rest) zero read

theorem value?_of_literal {text : Text} {n : Nat} (literal : Literal text n) :
    value? text = some n := by
  cases literal with
  | @hexadecimal mark digits marked nonempty within =>
      rw [value?, if_pos rfl, if_pos marked, positional?_eq_some_iff (by decide)]
      exact ⟨nonempty, within, rfl⟩
  | @binary mark digits marked nonempty within =>
      have other : ¬ (mark = 'x' ∨ mark = 'X') := by
        rcases marked with rfl | rfl <;> decide
      rw [value?, if_pos rfl, if_neg other, if_pos marked, positional?_eq_some_iff (by decide)]
      exact ⟨nonempty, within, rfl⟩
  | @octal digits nonempty within =>
      cases digits with
      | nil => exact absurd rfl nonempty
      | cons v rest =>
          -- No mark is an octal digit, so the first digit is not taken for one.
          have digit := (List.cons_subset.mp within).1
          have notHexadecimal : ¬ (v = 'x' ∨ v = 'X') := by
            rintro (rfl | rfl) <;> exact absurd digit (by decide +kernel)
          have notBinary : ¬ (v = 'b' ∨ v = 'B') := by
            rintro (rfl | rfl) <;> exact absurd digit (by decide +kernel)
          rw [value?, if_pos rfl, if_neg notHexadecimal, if_neg notBinary,
            positional?_eq_some_iff (by decide)]
          exact ⟨nonempty, within, rfl⟩
  | zero => decide +kernel
  | @decimal first rest leading within =>
      have read : positional? 10 (first :: rest) = some (positional 10 (first :: rest)) :=
        (positional?_eq_some_iff (by decide) _ _).mpr ⟨List.cons_ne_nil first rest, within, rfl⟩
      cases rest with
      | nil => exact read
      | cons v rest =>
          rw [value?, if_neg leading]
          exact read

/-! ## Ways to write a number -/

/-- A capital letter as a small one; all other units stay as they are. -/
def small (u : CodeUnit) : CodeUnit :=
  if 'A' ≤ u && u ≤ 'Z' then u + 32 else u

/-- The digits of a number in a base, after any number of zeros and with the letters in either case. -/
def Renders (base n : Nat) (text : Text) : Prop :=
  exists zeros, text.map small =
    List.replicate zeros (CodeUnit.ofChar '0') ++ (Nat.toDigits base n).map CodeUnit.ofChar

/-- The digit of a given worth, with a small letter. -/
def digit (d : Nat) : CodeUnit :=
  CodeUnit.ofChar (Nat.digitChar d)

/-- The digits of a number denote it. -/
theorem exists_digits {base : Nat} (large : 1 < base) (n : Nat) : exists digits : List Nat,
    (Nat.toDigits base n).map CodeUnit.ofChar = digits.map digit ∧ (forall d, d ∈ digits -> d < base) ∧
      Nat.ofDigits base digits.reverse = n := by
  induction n using Nat.strongRecOn with
  | ind n ih =>
      by_cases below : n < base
      · refine ⟨[n], ?_, by simpa using below, Nat.ofDigits_singleton⟩
        rw [Nat.toDigits_of_lt_base below]
        rfl
      · have least : base ≤ n := Nat.le_of_not_lt below
        rcases ih (n / base) (Nat.div_lt_self (by omega) large) with ⟨digits, shape, bounded, denoted⟩
        refine ⟨digits ++ [n % base], ?_, ?_, ?_⟩
        · rw [Nat.toDigits_of_base_le large least, List.map_append, shape, List.map_append]
          rfl
        · intro d member
          rcases List.mem_append.mp member with earlier | last
          · exact bounded d earlier
          · rw [List.mem_singleton.mp last]
            exact Nat.mod_lt n (by omega)
        · rw [List.reverse_append, List.reverse_singleton, List.singleton_append, Nat.ofDigits_cons,
            denoted]
          exact Nat.mod_add_div n base

/-- A unit that a digit is the small form of is this digit in one of the cases. -/
theorem worth_of_small {u : CodeUnit} {d : Nat} (below : d < 16) (written : small u = digit d) :
    u ∈ alphabet ∧ worth u = d := by
  rw [small] at written
  split at written
  · next capital =>
      have each : forall d, d < 16 -> ('A' ≤ digit d - 32 && digit d - 32 ≤ 'Z') = true ->
          digit d - 32 ∈ alphabet ∧ worth (digit d - 32) = d := by
        decide +kernel
      have unit_eq : u = digit d - 32 := by
        rw [← written, UInt16.add_sub_cancel]
      rw [unit_eq] at capital ⊢
      exact each d below capital
  · have each : forall d, d < 16 -> digit d ∈ alphabet ∧ worth (digit d) = d := by
      decide +kernel
    rw [written]
    exact each d below

theorem map_worth_of_small {base : Nat} (most : base ≤ 16) {text : Text} {digits : List Nat}
    (bounded : forall d, d ∈ digits -> d < base) (written : text.map small = digits.map digit) :
    text ⊆ digitsOf base ∧ text.map worth = digits := by
  induction digits generalizing text with
  | nil =>
      rw [List.map_nil, List.map_eq_nil_iff] at written
      rw [written]
      exact ⟨List.nil_subset _, rfl⟩
  | cons d digits ih =>
      rcases List.map_eq_cons_iff.mp written with ⟨u, rest, rfl, first, others⟩
      rcases ih (fun e member => bounded e (List.mem_cons_of_mem d member)) others with ⟨within, worths⟩
      have below := bounded d List.mem_cons_self
      rcases worth_of_small (Nat.lt_of_lt_of_le below most) first with ⟨member, rfl⟩
      constructor
      · exact List.cons_subset.mpr ⟨mem_digitsOf.mpr ⟨member, below⟩, within⟩
      · rw [List.map_cons, worths]

/-- However a number is written in a base, the digits denote it. -/
theorem Renders.positional_eq {base n : Nat} {text : Text} (renders : Renders base n text)
    (large : 1 < base) (most : base ≤ 16) :
    text ≠ [] ∧ text ⊆ digitsOf base ∧ positional base text = n := by
  rcases renders with ⟨zeros, written⟩
  rcases exists_digits large n with ⟨digits, shape, bounded, denoted⟩
  have padded : text.map small = (List.replicate zeros 0 ++ digits).map digit := by
    rw [written, shape, List.map_append, List.map_replicate]
    rfl
  have paddedBounded : forall d, d ∈ List.replicate zeros 0 ++ digits -> d < base := by
    intro d member
    rcases List.mem_append.mp member with zero | digit
    · rw [List.eq_of_mem_replicate zero]
      omega
    · exact bounded d digit
  rcases map_worth_of_small most paddedBounded padded with ⟨within, worths⟩
  refine ⟨?_, within, ?_⟩
  · rintro rfl
    have empty := (List.append_eq_nil_iff.mp written.symm).2
    exact Nat.toDigits_ne_nil (List.map_eq_nil_iff.mp empty)
  · rw [positional, worths, List.reverse_append, List.reverse_replicate,
      Nat.ofDigits_append_replicate_zero, denoted]

/-- A text is read as a number exactly if it is a literal for it.  So a number is read back from its
decimal digits, and from every way to write it in another base behind the mark of this base. -/
theorem literals_exact :
    (forall text n, value? text = some n ↔ Literal text n) ∧
    (forall n, value? (Text.ofNat n) = some n) ∧
    (forall n text, Renders 16 n text -> forall mark : CodeUnit, mark = 'x' ∨ mark = 'X' ->
      value? ('0' :: mark :: text) = some n) ∧
    (forall n text, Renders 2 n text -> forall mark : CodeUnit, mark = 'b' ∨ mark = 'B' ->
      value? ('0' :: mark :: text) = some n) ∧
    (forall n text, Renders 8 n text -> value? ('0' :: text) = some n) := by
  refine ⟨fun text n => ⟨literal_of_value?, value?_of_literal⟩, value?_ofNat, ?_, ?_, ?_⟩
  · intro n text renders mark marked
    rcases renders.positional_eq (by decide) (by decide) with ⟨nonempty, within, rfl⟩
    exact value?_of_literal (.hexadecimal marked nonempty within)
  · intro n text renders mark marked
    rcases renders.positional_eq (by decide) (by decide) with ⟨nonempty, within, rfl⟩
    exact value?_of_literal (.binary marked nonempty within)
  · intro n text renders
    rcases renders.positional_eq (by decide) (by decide) with ⟨nonempty, within, rfl⟩
    exact value?_of_literal (.octal nonempty within)

/-- Padded and mixed renderings, among them one of zero. -/
theorem literals_exact_padded :
    Renders 16 2748 "00aBc" ∧ value? ('0' :: CodeUnit.ofChar 'X' :: ("00aBc" : Text)) = some 2748 ∧
    Renders 2 5 "0101" ∧ value? ('0' :: CodeUnit.ofChar 'b' :: ("0101" : Text)) = some 5 ∧
    Renders 8 0 "00" ∧ value? (CodeUnit.ofChar '0' :: ("00" : Text)) = some 0 := by
  have hexadecimal : Renders 16 2748 "00aBc" := ⟨2, by decide +kernel⟩
  have binary : Renders 2 5 "0101" := ⟨1, by decide +kernel⟩
  have octal : Renders 8 0 "00" := ⟨1, by decide +kernel⟩
  exact ⟨hexadecimal, literals_exact.2.2.1 _ _ hexadecimal _ (Or.inr rfl),
    binary, literals_exact.2.2.2.1 _ _ binary _ (Or.inl rfl), octal, literals_exact.2.2.2.2 _ _ octal⟩

end Numeral
end Monotype
