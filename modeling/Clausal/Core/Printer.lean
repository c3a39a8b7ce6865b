import Clausal.Core
import Clausal.Surface.Printer

/-!
# The text of core expressions

Parentheses go where those of surface programs go.
-/

namespace Clausal.Core

mutual

/-- The text of a core expression in a position. -/
def textAt (position : Position) : Core → String
  | .var name => name
  | .const c => c.text
  | .app func arg =>
    parens (position = .argument) (func.textAt .head ++ " " ++ arg.textAt .argument)
  | .tuple elements => tupleText (textsAlone elements)
  | .cond condition positive negative =>
    parens (position ≠ .alone)
      ("if " ++ condition.textAt .alone ++ " then " ++ positive.textAt .alone ++ " else "
        ++ negative.textAt .alone)
  | .lam param body =>
    parens (position ≠ .alone) ("\\" ++ param ++ " -> " ++ body.textAt .alone)
  | .letIn name value body =>
    parens (position ≠ .alone)
      ("let " ++ name ++ " = " ++ value.textAt .alone ++ " in " ++ body.textAt .alone)

/-- The texts of core expressions that stand alone. -/
def textsAlone : List Core → List String
  | [] => []
  | e :: es => e.textAt .alone :: textsAlone es

end

/-- The text of a core expression that stands alone. -/
def text (e : Core) : String := e.textAt .alone

end Clausal.Core
