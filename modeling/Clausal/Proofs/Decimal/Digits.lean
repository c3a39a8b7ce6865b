import Clausal.Decimal.Digits
import Mathlib

/-!
# Reading the digits of a number

The digits that a number is written with are read back as the number.

## Main results

* `Digits.read?_toDigits`: every number is read back;
* `Digits.readIndex?_toDigits`: a number in the machine's range is read back as an index.
-/

namespace Clausal.Digits

variable {n : Nat}

theorem value_cons (acc : Nat) (c : Char) (digits : List Char) :
    value acc (c :: digits) = value (10 * acc + (c.toNat - '0'.toNat)) digits := by
  delta value
  rfl

/-- Digits are read as those that a number is written with. -/
theorem value_eq_ofDigitChars (acc : Nat) (digits : List Char) :
    value acc digits = Nat.ofDigitChars 10 digits acc := by
  induction digits generalizing acc with
  | nil => rfl
  | cons c digits ih => rw [value_cons, ih, Nat.ofDigitChars_cons]

theorem isDigit_of_mem_toDigits {c : Char} (h : c ∈ Nat.toDigits 10 n) : c.isDigit = true :=
  Nat.isDigit_of_mem_toDigits (by decide) (by decide) h

/-- The digits of a number are read back. -/
theorem read?_toDigits (n : Nat) : read? (Nat.toDigits 10 n) = some n := by
  have hdigits : (Nat.toDigits 10 n).all Char.isDigit = true :=
    List.all_eq_true.2 fun _ hc => isDigit_of_mem_toDigits hc
  have hne : (Nat.toDigits 10 n).isEmpty = false :=
    List.isEmpty_eq_false_iff.2 Nat.toDigits_ne_nil
  rw [read?, hne, hdigits, value_eq_ofDigitChars, Nat.ofDigitChars_ten_toDigits]
  rfl

/-- The digits of an index are read back. -/
theorem readIndex?_toDigits (h : n < indexBound) : readIndex? (Nat.toDigits 10 n) = some n := by
  rw [readIndex?, read?_toDigits, Option.filter_some, if_pos (decide_eq_true h)]

end Clausal.Digits
