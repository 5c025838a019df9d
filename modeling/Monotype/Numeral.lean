import Monotype.Text

namespace Monotype
namespace Numeral

/-!
Integer literals.

A literal is written in one of four bases.  `0x` and `0b`, in either case of
the letter, open a hexadecimal and a binary numeral; a zero followed by further
digits opens an octal one; every other numeral is decimal and has no leading
zero.  So `08` is no literal at all: it is neither octal nor decimal.
-/

/-- The value of a digit of either case, in bases up to sixteen. -/
def digit? (base : Nat) (u : CodeUnit) : Option Nat :=
  let value? :=
    if u.isDigit then some (u.toNat - 48)
    else if 'a' ≤ u && u ≤ 'f' then some (u.toNat - 97 + 10)
    else if 'A' ≤ u && u ≤ 'F' then some (u.toNat - 65 + 10)
    else none
  value?.filter (· < base)

/-- The number that continues `high` by the digits of a text, most significant
first; `none` if some unit is no digit of the base. -/
def extend? (base : Nat) (high : Nat) : Text -> Option Nat
  | [] => some high
  | u :: rest =>
      match digit? base u with
      | none => none
      | some d => extend? base (high * base + d) rest

/-- The positional value of one or more digits. -/
def positional? (base : Nat) : Text -> Option Nat
  | [] => none
  | u :: rest => extend? base 0 (u :: rest)

/-- The value of an integer literal, or `none` if the text is not one. -/
def value? : Text -> Option Nat
  | [] => none
  | [u] => positional? 10 [u]
  | u :: v :: rest =>
      if u = '0' then
        if v = 'x' ∨ v = 'X' then positional? 16 rest
        else if v = 'b' ∨ v = 'B' then positional? 2 rest
        else positional? 8 (v :: rest)
      else positional? 10 (u :: v :: rest)

end Numeral
end Monotype
