import Clausal.Decimal.Text
import Clausal.Text.Quoted

/-!
# Literals

The values that programs of every level share: machine integers, double precision numbers,
characters and booleans.
-/

namespace Clausal

/-- A literal value. -/
inductive Literal
  | int (value : Int64)
  | float (value : Float)
  | char (value : Char)
  | bool (value : Bool)
  deriving DecidableEq

namespace Literal

/-- The kind of a literal, as the names of the literal tests spell it. -/
def kind : Literal → String
  | .int _ => "int"
  | .float _ => "float"
  | .char _ => "char"
  | .bool _ => "bool"

/-- Equality as pattern matching observes it: same kind and same value. Numbers compare as
doubles do, so the two zeros match and a value that is no number does not even match itself. -/
def agrees : Literal → Literal → Bool
  | .int a, .int b => a == b
  | .float a, .float b => a == b
  | .char a, .char b => a == b
  | .bool a, .bool b => a == b
  | _, _ => false

/-- Doubles are written positionally from `0.0001` up to below `10^16`. -/
def floatFormat : FloatFormat where
  positionalFrom := -4
  positionalBelow := 16
  notANumber := "NaN"
  infinity := "inf"

/-- The text of a literal without quotes, as it ends the name of its test. -/
def bareText : Literal → String
  | .int v => toString v.toInt
  | .float v => Binary64.text floatFormat v
  | .char c => String.singleton c
  | .bool b => if b then "true" else "false"

/-- The text of a literal in a program. -/
def text : Literal → String
  | .char c => Quoted.char c
  | l => l.bareText

end Literal

end Clausal
