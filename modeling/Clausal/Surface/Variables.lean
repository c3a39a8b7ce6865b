import Clausal.Surface.Expr

/-!
# Variables of surface programs

`Expr.names` lists every name that stands for a variable anywhere, binders included; the supply
of fresh names avoids them. `Expr.free` lists the free ones:

* a lambda binds the names of its patterns in its body, and a case arm those of its pattern;
* a `let` binds all the names it declares in all its right-hand sides and in its body;
* a function clause binds the names of its patterns in its right-hand side.

Both lists follow the text from left to right, with repetitions.
-/

namespace Clausal

namespace Expr

mutual

/-- Every name that stands for a variable in an expression, bound or free. -/
def names : Expr → List String
  | .var name => [name]
  | .lit _ | .con _ | .prim _ => []
  | .app func args => func.names ++ namesList args
  | .tuple elements => namesList elements
  | .lam params body => Pattern.boundNamesList params ++ body.names
  | .cond condition positive negative => condition.names ++ positive.names ++ negative.names
  | .letIn decls body => namesDecls decls ++ body.names
  | .caseOf scrutinee arms => scrutinee.names ++ namesArms arms

/-- Every variable name in a list of expressions. -/
def namesList : List Expr → List String
  | [] => []
  | e :: es => e.names ++ namesList es

/-- Every variable name in a block of declarations. -/
def namesDecls : List (Decl Expr) → List String
  | [] => []
  | .clause name params body :: ds =>
    name :: Pattern.boundNamesList params ++ body.names ++ namesDecls ds
  | .value pattern body :: ds => pattern.boundNames ++ body.names ++ namesDecls ds
  | .data _ :: ds => namesDecls ds

/-- Every variable name in a list of arms. -/
def namesArms : List (Arm Expr) → List String
  | [] => []
  | ⟨pattern, body⟩ :: arms => pattern.boundNames ++ body.names ++ namesArms arms

end

mutual

/-- The free variables of an expression. -/
def free : Expr → List String
  | .var name => [name]
  | .lit _ | .con _ | .prim _ => []
  | .app func args => func.free ++ freeList args
  | .tuple elements => freeList elements
  | .lam params body => body.free.removeAll (Pattern.boundNamesList params)
  | .cond condition positive negative => condition.free ++ positive.free ++ negative.free
  | .letIn decls body => (freeDecls decls ++ body.free).removeAll (decls.flatMap Decl.boundNames)
  | .caseOf scrutinee arms => scrutinee.free ++ freeArms arms

/-- The free variables of a list of expressions. -/
def freeList : List Expr → List String
  | [] => []
  | e :: es => e.free ++ freeList es

/-- The free variables of the right-hand sides of a block, the names it declares included. -/
def freeDecls : List (Decl Expr) → List String
  | [] => []
  | .clause _ params body :: ds =>
    body.free.removeAll (Pattern.boundNamesList params) ++ freeDecls ds
  | .value _ body :: ds => body.free ++ freeDecls ds
  | .data _ :: ds => freeDecls ds

/-- The free variables of a list of arms. -/
def freeArms : List (Arm Expr) → List String
  | [] => []
  | ⟨pattern, body⟩ :: arms => body.free.removeAll pattern.boundNames ++ freeArms arms

end

/-- The free variables of a list are those of its members, in order. -/
theorem freeList_eq_flatMap (es : List Expr) : freeList es = es.flatMap free := by
  induction es with
  | nil => rfl
  | cons e es ih => simp [freeList, ih]

/-- The names of a list are those of its members, in order. -/
theorem namesList_eq_flatMap (es : List Expr) : namesList es = es.flatMap names := by
  induction es with
  | nil => rfl
  | cons e es ih => simp [namesList, ih]

end Expr

/-- The free variables of a right-hand side. The name that the declaration itself declares stays
among them, since dependencies include the ones on oneself. -/
def Decl.free (d : Decl Expr) : List String := Expr.freeDecls [d]

/-- Every name that stands for a variable in a program or in an expression beside it. -/
def Program.names (p : Program) (e : Expr) : List String := Expr.namesDecls p.decls ++ e.names

end Clausal
