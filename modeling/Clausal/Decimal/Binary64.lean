/-!
# Double precision numbers as significand and power of two

A finite double of magnitude `m · 2^q` is held as the pair of naturals that make its word, so
that decimal conversion can work on exact numbers. `Finite.ofBits` reads the word of a finite
double, `nearestBits` finds the word nearest to a decimal fraction, ties to the even word.
-/

namespace Clausal.Binary64

/-- A power of two. -/
def twoTo (n : Nat) : Nat := Nat.pow 2 n

/-- A power of ten. -/
def tenTo (n : Nat) : Nat := Nat.pow 10 n

/-- The magnitude of a finite double: `significand · 2^(scale - 1074)`. -/
structure Finite where
  /-- The significand, with its leading one for a normal number. -/
  significand : Nat
  /-- How many doublings lie between the smallest spacing, `2^-1074`, and this number's. -/
  scale : Nat

/-- The number of significands of one binade, `2^52`. -/
def binade : Nat := twoTo 52

/-- The word of positive infinity. -/
def infinityBits : Nat := 2047 * binade

/-- The magnitude held in the 63 low bits of the word of a finite double. -/
def Finite.ofBits (magnitude : Nat) : Finite :=
  let exponent := magnitude / binade
  if exponent = 0 then ⟨magnitude, 0⟩
  else ⟨binade + magnitude % binade, exponent - 1⟩

/-- The next double toward zero is half as far away as the next one outward: so it is at the
first significand of a binade, the lowest two binades apart. -/
def Finite.startsBinade (x : Finite) : Bool :=
  x.significand == binade && x.scale != 0

/-- `num / den` rounded to the nearest natural number, a half to the even one. -/
def roundHalfEven (num den : Nat) : Nat :=
  let low := num / den
  let rest := num % den
  if 2 * rest < den || (2 * rest == den && low % 2 == 0) then low else low + 1

/-- The scale at which `num / den` has a significand of 53 bits, or 0 for a smaller number. -/
def scaleOf (num den : Nat) : Nat :=
  let guess := num.log2 + 1074 - den.log2 - 53
  if den * twoTo (guess + 53) ≤ num * twoTo 1074 then guess + 1 else guess

/-- The word of the double nearest to `num / den`. Words count upward with the numbers they
stand for, so a significand that rounds up into the next binade needs no separate treatment. -/
def nearestBits (num den : Nat) : Nat :=
  let scale := scaleOf num den
  let significand := roundHalfEven (num * twoTo 1074) (den * twoTo scale)
  min infinityBits (scale * binade + significand)

end Clausal.Binary64
