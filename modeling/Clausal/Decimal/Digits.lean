/-!
# Decimal digit strings

Natural numbers written in ASCII decimal digits. `Digits.read?` accepts exactly the nonempty
strings of the characters `0` to `9`, leading zeros included, and gives their value.
-/

namespace Clausal.Digits

/-- The value of a digit string, most significant digit first, after the value `acc` read so far. -/
def value (acc : Nat) : List Char → Nat
  | [] => acc
  | c :: cs => value (10 * acc + (c.toNat - '0'.toNat)) cs

/-- The number a nonempty string of ASCII digits denotes; `none` for every other string. -/
def read? (cs : List Char) : Option Nat :=
  if !cs.isEmpty && cs.all Char.isDigit then some (value 0 cs) else none

/-- One more than the largest number a machine index of 64 bits can hold. -/
def indexBound : Nat := 18446744073709551616

/-- The number a digit string denotes, if a machine index can hold it. -/
def readIndex? (cs : List Char) : Option Nat :=
  (read? cs).filter (· < indexBound)

/-- The empty string is no number. -/
theorem read?_nil : read? [] = none := rfl

/-- What `readIndex?` accepts is an index. -/
theorem lt_indexBound_of_readIndex? {cs : List Char} {n : Nat} (h : readIndex? cs = some n) :
    n < indexBound := by
  simp only [readIndex?, Option.filter_eq_some_iff, decide_eq_true_eq] at h
  exact h.2

end Clausal.Digits
