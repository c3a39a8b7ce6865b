import Clausal.Primitive

/-!
# Operators on literals

Integers wrap around and divide toward zero; a division by zero has no result. Doubles follow
IEEE 754. Comparisons need two literals of one kind.
-/

namespace Clausal.Operator

/-- The result of a comparison of two values that are as the three truth values say. All three are
false if one of the values is no number. -/
def compare? (op : Operator) (isLess isEqual isGreater : Bool) : Option Bool :=
  match op with
  | eq => some isEqual
  | neq => some (!isEqual)
  | lt => some isLess
  | leq => some (isLess || isEqual)
  | gt => some isGreater
  | geq => some (isGreater || isEqual)
  | _ => none

/-- The result of an arithmetic operator on integers. -/
def onInts? (op : Operator) (a b : Int64) : Option Int64 :=
  match op with
  | plus => some (a + b)
  | minus => some (a - b)
  | mult => some (a * b)
  | div => if b = 0 then none else some (a / b)
  | mod => if b = 0 then none else some (a % b)
  | _ => none

/-- The result of an arithmetic operator on doubles. -/
def onFloats? (op : Operator) (a b : Float) : Option Float :=
  match op with
  | fplus => some (a + b)
  | fminus => some (a - b)
  | fmult => some (a * b)
  | fdiv => some (a / b)
  | _ => none

/-- The result of a connective on truth values. -/
def onBools? (op : Operator) (a b : Bool) : Option Bool :=
  match op with
  | and => some (a && b)
  | or => some (a || b)
  | _ => none

/-- The result of an operator on two literals. -/
def evaluate? (op : Operator) (left right : Literal) : Option Literal :=
  match left, right with
  | .int a, .int b =>
    ((op.onInts? a b).map .int).or ((op.compare? (a < b) (a = b) (b < a)).map .bool)
  | .float a, .float b =>
    ((op.onFloats? a b).map .float).or ((op.compare? (a < b) (a == b) (b < a)).map .bool)
  | .char a, .char b => (op.compare? (a < b) (a = b) (b < a)).map .bool
  | .bool a, .bool b =>
    ((op.onBools? a b).or (op.compare? (!a && b) (a = b) (a && !b))).map .bool
  | _, _ => none

end Clausal.Operator
