import Clausal.Decimal.Digits
import Clausal.Decimal.Shortest

/-!
# Writing and reading doubles

`Binary64.text` writes a double with the digits of `Finite.shortest`, positionally or with an
exponent as a `FloatFormat` says. `Binary64.read?` reads any decimal notation and rounds to
the nearest double.
-/

namespace Clausal

/-- The decisions of a text format for doubles that the digits leave open. -/
structure FloatFormat where
  /-- The least power of ten of the first digit that is written positionally. -/
  positionalFrom : Int
  /-- The first power of ten of the first digit that is again written with an exponent. -/
  positionalBelow : Int
  /-- The text of a value that is no number. -/
  notANumber : String
  /-- The text of positive infinity. -/
  infinity : String

namespace Decimal

/-- `d.ddde±x`, with a point only between digits and a sign only for a negative exponent. -/
def scientific (d : Decimal) : String :=
  let mantissa := match d.digits with
    | [] => []
    | [first] => [first]
    | first :: rest => first :: '.' :: rest
  String.ofList mantissa ++ "e" ++ toString d.exponent

/-- Without exponent, with at least one digit on each side of the point. -/
def positional (d : Decimal) : String :=
  if d.exponent < 0 then
    "0." ++ String.ofList (List.replicate (-d.exponent - 1).toNat '0' ++ d.digits)
  else
    let whole := d.exponent.toNat + 1
    let padded := d.digits ++ List.replicate (whole - d.digits.length) '0'
    let fraction := d.digits.drop whole
    String.ofList (padded.take whole ++ '.' :: if fraction.isEmpty then ['0'] else fraction)

/-- The text of a positive decimal in the given format. -/
def text (format : FloatFormat) (d : Decimal) : String :=
  if format.positionalFrom ≤ d.exponent && d.exponent < format.positionalBelow then d.positional
  else d.scientific

end Decimal

namespace Binary64

/-- The bit that holds the sign of a double, as a number. -/
def signBit : Nat := twoTo 63

/-- The text of a double in the given format. A value that is no number has no sign. -/
def text (format : FloatFormat) (x : Float) : String :=
  let bits := x.toBits.toNat
  let magnitude := bits % signBit
  let sign := if signBit ≤ bits then "-" else ""
  if infinityBits < magnitude then format.notANumber
  else if magnitude = infinityBits then sign ++ format.infinity
  else if magnitude = 0 then sign ++ "0.0"
  else sign ++ (Finite.ofBits magnitude).shortest.text format

/-! ## Reading -/

/-- The word of the double nearest to `digits · 10^power`. A value of `10^400` and above is
infinite, one below `10^-400` is zero. -/
def magnitudeOf (digits : Nat) (power : Int) : Nat :=
  let size : Int := (Nat.toDigits 10 digits).length + power
  if digits = 0 || size < -400 then 0
  else if 400 < size then infinityBits
  else nearestBits (digits * tenTo power.toNat) (tenTo (-power).toNat)

/-- A sign that may stand before a number: whether it is a minus, and what follows it. -/
def readSign : List Char → Bool × List Char
  | '-' :: cs => (true, cs)
  | '+' :: cs => (false, cs)
  | cs => (false, cs)

/-- The exponent after a mantissa: nothing, or `e` or `E` with a signed digit string. -/
def readExponent? : List Char → Option Int
  | [] => some 0
  | c :: cs =>
    if c == 'e' || c == 'E' then
      let (negative, digits) := readSign cs
      (Digits.read? digits).map fun n => if negative then -(n : Int) else n
    else none

/-- The magnitude of an unsigned decimal notation: digits, at most one point among them, and at
most one exponent. -/
def readMagnitude? (cs : List Char) : Option Nat := do
  let whole := cs.takeWhile Char.isDigit
  let afterWhole := cs.dropWhile Char.isDigit
  let (fraction, rest) := match afterWhole with
    | '.' :: more => (more.takeWhile Char.isDigit, more.dropWhile Char.isDigit)
    | more => ([], more)
  let digits ← Digits.read? (whole ++ fraction)
  let exponent ← readExponent? rest
  return magnitudeOf digits (exponent - fraction.length)

/-- Reads `inf`, `infinity` and `nan` in any case, and decimal notation, each after an optional
sign. A value that is no number comes out as the one without sign. -/
def read? (text : String) : Option Float :=
  let (negative, cs) := readSign text.toList
  let word := cs.map Char.toLower
  let signed (magnitude : Nat) : Float :=
    Float.ofBits (UInt64.ofNat (if negative then signBit + magnitude else magnitude))
  if word == "nan".toList then some (Float.ofBits (UInt64.ofNat (infinityBits + binade / 2)))
  else if word == "inf".toList || word == "infinity".toList then some (signed infinityBits)
  else (readMagnitude? cs).map signed

end Binary64

end Clausal
