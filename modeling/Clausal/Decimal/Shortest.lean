import Clausal.Decimal.Binary64

/-!
# The shortest decimal that reads back

`Binary64.Finite.shortest` gives the fewest decimal digits whose value reads back as the same
double, and among these the ones nearest to it. For 1, 2, … digits the two neighbours of the
exact value on the grid of that many digits are tested against the interval of reals that round
to the double; if a point of the grid lies in the interval, so does one of the two neighbours.
-/

namespace Clausal

/-- The decimal `d₁.d₂d₃… · 10^exponent`, in scientific notation. -/
structure Decimal where
  /-- The significant digits as characters, the first one not zero. -/
  digits : List Char
  /-- The power of ten of the first digit. -/
  exponent : Int

namespace Binary64

/-- A double on a grid of decimals: every field counts in one unit, small enough that all of
them are natural numbers. -/
structure OnGrid where
  /-- The double itself. -/
  value : Nat
  /-- The distance of two neighbours on the grid. -/
  gap : Nat
  /-- How far above the double the reals that round to it extend. -/
  above : Nat
  /-- How far below the double the reals that round to it extend. -/
  below : Nat
  /-- Whether the two ends round to the double as well. -/
  closed : Bool

/-- Whether grid point number `point` rounds to the double. -/
def OnGrid.readsBack (g : OnGrid) (point : Nat) : Bool :=
  let place := point * g.gap
  if g.closed then g.value ≤ place + g.below && place ≤ g.value + g.above
  else g.value < place + g.below && place < g.value + g.above

/-- The grid point nearest to the double among its neighbours that round to it. Of two equally
near ones it is the upper. -/
def OnGrid.nearest? (g : OnGrid) : Option Nat :=
  let low := g.value / g.gap
  match g.readsBack low, g.readsBack (low + 1) with
  | true, true => some (if 2 * (g.value % g.gap) < g.gap then low else low + 1)
  | true, false => some low
  | false, true => some (low + 1)
  | false, false => none

/-- The double on the grid of the multiples of `10^power`. -/
def Finite.onGrid (x : Finite) (power : Int) : OnGrid :=
  let spacing := twoTo x.scale * tenTo (-power).toNat
  { value := 4 * x.significand * spacing
    gap := 4 * twoTo 1074 * tenTo power.toNat
    above := 2 * spacing
    below := if x.startsBinade then spacing else 2 * spacing
    closed := x.significand % 2 == 0 }

/-- The power of ten of the first digit of a positive double, none of which is below `10^-330`. -/
def Finite.leadingPower (x : Finite) : Int :=
  let scaled := x.significand * twoTo x.scale * tenTo 330 / twoTo 1074
  ((Nat.toDigits 10 scaled).length : Int) - 331

/-- Drops the zeros at the end. -/
def dropTrailingZeros (digits : List Char) : List Char :=
  (digits.reverse.dropWhile (· == '0')).reverse

/-- The shortest decimal that reads back as the positive double `x`. Seventeen digits always
suffice. -/
def Finite.shortest (x : Finite) : Decimal :=
  let power := x.leadingPower
  let found := (List.range 17).findSome? fun more : Nat =>
    (x.onGrid (power - more)).nearest?.map fun point => (Nat.toDigits 10 point, power - more)
  match found with
  | some (digits, last) => ⟨dropTrailingZeros digits, last + digits.length - 1⟩
  | none => ⟨['0'], 0⟩

end Binary64

end Clausal
