import Clausal.Surface.Printer
import Clausal.Term

/-!
# The text of lambda terms

An abstraction is in parentheses unless it stands alone, an application only as an argument.
-/

namespace Clausal.Term

/-- The text of a term in a position. -/
def textAt (position : Position) : Term → String
  | .var name => name
  | .const c => c.text
  | .abs param body =>
    parens (position ≠ .alone) ("\\" ++ param ++ " -> " ++ body.textAt .alone)
  | .app func arg =>
    parens (position = .argument) (func.textAt .head ++ " " ++ arg.textAt .argument)

/-- The text of a term that stands alone. -/
def text (t : Term) : String := t.textAt .alone

end Clausal.Term
