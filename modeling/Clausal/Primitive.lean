import Clausal.Literal

/-!
# Primitives

The constants to which the delta rules give a meaning: operators, the conditional, the fixpoint,
and the tests and projections that pattern matching is made of.
-/

namespace Clausal

/-- The arithmetic, comparison and boolean operators. -/
inductive Operator
  | plus | minus | mult | div | mod
  | fplus | fminus | fmult | fdiv
  | eq | neq | lt | leq | gt | geq
  | and | or | not | negate
  deriving DecidableEq

namespace Operator

/-- Every operator. -/
def all : List Operator :=
  [plus, minus, mult, div, mod, fplus, fminus, fmult, fdiv,
    eq, neq, lt, leq, gt, geq, and, or, not, negate]

/-- The name by which programs call an operator. -/
def name : Operator → String
  | plus => "plus"
  | minus => "minus"
  | mult => "mult"
  | div => "div"
  | mod => "mod"
  | fplus => "fplus"
  | fminus => "fminus"
  | fmult => "fmult"
  | fdiv => "fdiv"
  | eq => "eq"
  | neq => "neq"
  | lt => "lt"
  | leq => "leq"
  | gt => "gt"
  | geq => "geq"
  | and => "and"
  | or => "or"
  | not => "not"
  | negate => "negate"

/-- The operator with a given name. -/
def ofName? (name : String) : Option Operator :=
  all.find? fun op => op.name == name

/-- The number of operands. -/
def arity : Operator → Nat
  | not | negate => 1
  | _ => 2

/-- The list of all operators misses none. -/
theorem mem_all (op : Operator) : op ∈ all := by
  cases op <;> decide

/-- An operator is found again under its name. -/
theorem ofName?_name (op : Operator) : ofName? op.name = some op := by
  cases op <;> decide

end Operator

/-- A constant with a delta rule, or one that the rules inspect. -/
inductive Primitive
  /-- An operator on literals. -/
  | operator (op : Operator)
  /-- The conditional: picks one of two branches. -/
  | branch
  /-- The fixpoint. -/
  | fix
  /-- The result of a match that no pattern fits. No rule consumes it. -/
  | bot
  /-- The constructor of tuples of the given size. -/
  | tuple (size : Nat)
  /-- Whether a value is a tuple of the given size. -/
  | isTuple (size : Nat)
  /-- The component with the given number, counted from 1, of a tuple of the given size. -/
  | select (size index : Nat)
  /-- Whether a value is built with the given constructor. -/
  | isConstructor (name : String)
  /-- The fields of a value built with the given constructor: the field itself if there is
  one, otherwise the tuple of the fields. -/
  | argOf (name : String)
  /-- Whether a value is the given literal. -/
  | isLiteral (literal : Literal)
  deriving DecidableEq

namespace Primitive

/-- The number of arguments that the rule for a primitive consumes. The constants without a rule
have none: `bot`, and the tuple constructors, which head data. -/
def arity? : Primitive → Option Nat
  | .operator op => some op.arity
  | .branch | .fix | .isTuple _ | .select _ _ | .isConstructor _ | .argOf _ | .isLiteral _ =>
    some 1
  | .bot | .tuple _ => none

/-- Equality of primitives in which the literals of two literal tests compare as pattern matching
compares them. -/
def agrees : Primitive → Primitive → Bool
  | .isLiteral a, .isLiteral b => a.agrees b
  | a, b => a == b

end Primitive

end Clausal
