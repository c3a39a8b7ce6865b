import Clausal.Primitive.Name

/-!
# Constants

The leaves without free variables of core expressions and of lambda terms.
-/

namespace Clausal

/-- A constant of the lambda calculus. -/
inductive Constant
  | literal (value : Literal)
  /-- A data constructor. -/
  | constructor (name : String)
  | primitive (value : Primitive)
  deriving DecidableEq

namespace Constant

/-- The text of a constant. -/
def text : Constant → String
  | .literal value => value.text
  | .constructor name => name
  | .primitive value => value.name

/-- The literal that a constant is, if it is one. -/
def literal? : Constant → Option Literal
  | .literal value => some value
  | _ => none

end Constant

end Clausal
