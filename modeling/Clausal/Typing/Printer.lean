import Clausal.Surface.Printer
import Clausal.Typing.Ty

/-!
# The text of types

A function type is in parentheses on the left of an arrow and as an argument of a data type, a
data type with arguments only as an argument.
-/

namespace Clausal.Ty

mutual

/-- The text of a type in a position. The left of an arrow is a `head`. -/
def textAt (position : Position) : Ty → String
  | .var v => v.text
  | .con .int _ => "Int"
  | .con .float _ => "Float"
  | .con .char _ => "Char"
  | .con .bool _ => "Bool"
  | .con .tuple elements => tupleText (textsAt .alone elements)
  | .con .arrow [source, target] =>
    parens (position ≠ .alone) (source.textAt .head ++ " -> " ++ target.textAt .alone)
  | .con .arrow args => spacedText "->" (textsAt .argument args)
  | .con (.data name) args =>
    parens (position = .argument && !args.isEmpty) (spacedText name (textsAt .argument args))

/-- The texts of types in the same kind of position. -/
def textsAt (position : Position) : List Ty → List String
  | [] => []
  | t :: ts => t.textAt position :: textsAt position ts

end

/-- The text of a type that stands alone. -/
def text (t : Ty) : String := t.textAt .alone

end Clausal.Ty
