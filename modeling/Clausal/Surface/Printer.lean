import Clausal.Primitive.Name
import Clausal.Surface.Expr

/-!
# The text of surface programs

Everything is written on one line, with parentheses exactly where a position needs them:
an argument is in parentheses unless it is closed by itself, the function of an application only
if its text extends to the right.
-/

namespace Clausal

/-- A text in parentheses if `needed`. -/
def parens (needed : Bool) (text : String) : String :=
  if needed then "(" ++ text ++ ")" else text

/-- Texts separated by commas, in parentheses. -/
def tupleText (texts : List String) : String := "(" ++ ", ".intercalate texts ++ ")"

/-- A head followed by its arguments, separated by blanks. -/
def spacedText (head : String) (args : List String) : String := " ".intercalate (head :: args)

/-- Where an expression stands. -/
inductive Position
  /-- By itself, or where nothing can follow it. -/
  | alone
  /-- As the function of an application. -/
  | head
  /-- As an argument of an application. -/
  | argument
  deriving DecidableEq

namespace Pattern

mutual

/-- The text of a pattern; as an `argument`, a constructor with arguments is in parentheses. -/
def textAs (argument : Bool) : Pattern → String
  | .var name => name
  | .wildcard => "_"
  | .lit literal => literal.text
  | .tuple elements => tupleText (textsAs false elements)
  | .con name args => parens (argument && !args.isEmpty) (spacedText name (textsAs true args))

/-- The texts of a list of patterns. -/
def textsAs (argument : Bool) : List Pattern → List String
  | [] => []
  | p :: ps => textAs argument p :: textsAs argument ps

end

/-- The text of a pattern that stands alone. -/
def text (p : Pattern) : String := p.textAs false

end Pattern

namespace TypeExpr

mutual

/-- The text of a field type; as an `argument`, arrows and applied types are in parentheses. -/
def textAs (argument : Bool) : TypeExpr → String
  | .var name => name
  | .con name args => parens (argument && !args.isEmpty) (spacedText name (textsAs true args))
  | .tuple elements => tupleText (textsAs false elements)
  | .func source target => parens argument (source.textAs true ++ " -> " ++ target.textAs false)

/-- The texts of a list of field types. -/
def textsAs (argument : Bool) : List TypeExpr → List String
  | [] => []
  | t :: ts => textAs argument t :: textsAs argument ts

end

/-- The text of a field type that stands alone. -/
def text (t : TypeExpr) : String := t.textAs false

end TypeExpr

/-- The text of a constructor with the types of its fields. -/
def ConstructorDecl.text (c : ConstructorDecl) : String :=
  spacedText c.name (c.fields.map (TypeExpr.textAs true))

/-- The text of a data declaration. One without constructors ends after its parameters. -/
def DataDecl.text (d : DataDecl) : String :=
  let head := spacedText ("data " ++ d.name) d.params
  if d.constructors.isEmpty then head
  else head ++ " = " ++ " | ".intercalate (d.constructors.map ConstructorDecl.text)

namespace Expr

mutual

/-- The text of an expression in a position. -/
def textAt (position : Position) : Expr → String
  | .var name => name
  | .lit literal => literal.text
  | .con name => name
  | .prim primitive => primitive.name
  | .tuple elements => tupleText (textsAt .alone elements)
  | .app func args =>
    parens (position = .argument) (spacedText (func.textAt .head) (textsAt .argument args))
  | .lam params body =>
    parens (position ≠ .alone)
      ("\\" ++ " ".intercalate (Pattern.textsAs true params) ++ " -> " ++ body.textAt .alone)
  | .cond condition positive negative =>
    parens (position ≠ .alone)
      ("if " ++ condition.textAt .alone ++ " then " ++ positive.textAt .alone ++ " else "
        ++ negative.textAt .alone)
  | .letIn decls body =>
    parens (position ≠ .alone)
      ("let \x7b " ++ "; ".intercalate (declTexts decls) ++ " \x7d in " ++ body.textAt .alone)
  | .caseOf scrutinee arms =>
    parens (position ≠ .alone)
      ("case " ++ scrutinee.textAt .alone ++ " of \x7b " ++ "; ".intercalate (armTexts arms) ++ " \x7d")

/-- The texts of expressions that stand in the same kind of position. -/
def textsAt (position : Position) : List Expr → List String
  | [] => []
  | e :: es => e.textAt position :: textsAt position es

/-- The texts of the declarations of a block. -/
def declTexts : List (Decl Expr) → List String
  | [] => []
  | .clause name params body :: ds =>
    (spacedText name (Pattern.textsAs true params) ++ " = " ++ body.textAt .alone) :: declTexts ds
  | .value pattern body :: ds => (pattern.text ++ " = " ++ body.textAt .alone) :: declTexts ds
  | .data decl :: ds => decl.text :: declTexts ds

/-- The texts of the arms of a case. -/
def armTexts : List (Arm Expr) → List String
  | [] => []
  | ⟨pattern, body⟩ :: arms => (pattern.text ++ " -> " ++ body.textAt .alone) :: armTexts arms

end

/-- The text of an expression that stands alone. -/
def text (e : Expr) : String := e.textAt .alone

end Expr

/-- The text of a declaration. -/
def Decl.text (d : Decl Expr) : String := String.join (Expr.declTexts [d])

/-- The text of a program, one declaration a line. -/
def Program.text (p : Program) : String := "\n".intercalate (Expr.declTexts p.decls)

end Clausal
