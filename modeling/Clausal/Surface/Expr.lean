import Clausal.Primitive
import Clausal.Surface.Data
import Clausal.Surface.Pattern

/-!
# Surface programs

The language that programs are written in. Functions are defined by clauses, lambdas bind
patterns, `case` tries its arms in order, and the declarations of one `let` may refer to each
other. A primitive never comes from a program text: the simplification rules put it in, so that no
binding of a program can capture it.
-/

namespace Clausal

/-- An arm of a case: a pattern and what to do if it matches. -/
structure Arm (β : Type) where
  /-- The pattern to match. -/
  pattern : Pattern
  /-- The expression that sees the names of the pattern. -/
  body : β

/-- A declaration with bodies of type `β`. -/
inductive Decl (β : Type)
  /-- One clause of a function: `name params = body`. -/
  | clause (name : String) (params : List Pattern) (body : β)
  /-- A value: `pattern = body`. -/
  | value (pattern : Pattern) (body : β)
  /-- A data type. -/
  | data (decl : DataDecl)

namespace Decl

variable {β : Type}

/-- The names that a declaration brings into the scope around it. Constructors are no variables. -/
def boundNames : Decl β → List String
  | .clause name _ _ => [name]
  | .value pattern _ => pattern.boundNames
  | .data _ => []

/-- The right-hand side of a declaration. -/
def body? : Decl β → Option β
  | .clause _ _ body => some body
  | .value _ body => some body
  | .data _ => none

/-- The data type that a declaration declares. -/
def data? : Decl β → Option DataDecl
  | .data decl => some decl
  | _ => none

/-- The pattern and the right-hand side of a value declaration. -/
def value? : Decl β → Option (Pattern × β)
  | .value pattern body => some (pattern, body)
  | _ => none

end Decl

/-- A surface expression. -/
inductive Expr
  | var (name : String)
  | lit (literal : Literal)
  | con (name : String)
  | prim (primitive : Primitive)
  /-- A function applied to any number of arguments. -/
  | app (func : Expr) (args : List Expr)
  | tuple (elements : List Expr)
  /-- A function of any number of patterns. -/
  | lam (params : List Pattern) (body : Expr)
  /-- `if condition then positive else negative`. -/
  | cond (condition positive negative : Expr)
  /-- A block of declarations that may refer to each other. -/
  | letIn (decls : List (Decl Expr)) (body : Expr)
  /-- The first arm whose pattern matches. -/
  | caseOf (scrutinee : Expr) (arms : List (Arm Expr))

namespace Expr

/-- The result of a match that no pattern fits. -/
def bot : Expr := .prim .bot

/-- The application of a function to one argument. -/
def app1 (func arg : Expr) : Expr := .app func [arg]

/-- The function of one variable. -/
def lam1 (name : String) (body : Expr) : Expr := .lam [.var name] body

/-- A leaf without free variables. -/
def isConstant : Expr → Bool
  | .lit _ | .con _ | .prim _ => true
  | _ => false

/-- A leaf, which costs nothing to copy. -/
def isTrivial : Expr → Bool
  | .var _ => true
  | e => e.isConstant

/-- The direct subexpressions, from left to right. Patterns have none. -/
def children : Expr → List Expr
  | .var _ | .lit _ | .con _ | .prim _ => []
  | .app func args => func :: args
  | .tuple elements => elements
  | .lam _ body => [body]
  | .cond condition positive negative => [condition, positive, negative]
  | .letIn decls body => decls.filterMap Decl.body? ++ [body]
  | .caseOf scrutinee arms => scrutinee :: arms.map Arm.body

end Expr

/-- A program: one block of declarations. -/
structure Program where
  /-- The declarations, in order. -/
  decls : List (Decl Expr)

namespace Program

/-- The data types of a program. -/
def dataDecls (p : Program) : List DataDecl := p.decls.filterMap Decl.data?

/-- The declarations of a program that are not of data types. -/
def valueDecls (p : Program) : List (Decl Expr) := p.decls.filter fun d => d.data?.isNone

/-- The expression that evaluates `e` in the scope of a program. -/
def enclose (p : Program) (e : Expr) : Expr :=
  if p.valueDecls.isEmpty then e else .letIn p.valueDecls e

end Program

end Clausal
