import Clausal.Core
import Clausal.Surface.Printer

/-!
# Core expressions of surface expressions

A surface expression without patterns, clauses and cases is a core expression. Any other holds a
construct that no core expression expresses; the first one, from left to right, is reported.
-/

namespace Clausal

/-- A construct that has no core expression. -/
inductive Unsupported
  | emptyLambda
  | patternLambda
  | multiPatternLambda
  | wildcardBinding
  | tupleBinding
  | refutableBinding
  | functionClause
  | dataDeclaration
  | severalDeclarations
  | caseExpression
  deriving DecidableEq

/-- What is wrong with a construct. -/
def Unsupported.reason : Unsupported → String
  | emptyLambda => "lambda without parameters"
  | patternLambda => "pattern lambda"
  | multiPatternLambda => "multi-pattern lambda"
  | wildcardBinding => "joker pattern binding"
  | tupleBinding => "tuple pattern binding"
  | refutableBinding => "refutable pattern binding"
  | functionClause => "function clause"
  | dataDeclaration => "data declaration"
  | severalDeclarations => "multiple declarations in one let"
  | caseExpression => "case expression"

/-- An expression that is no core expression. -/
structure TooComplex where
  /-- What is wrong with it. -/
  construct : Unsupported
  /-- The expression. -/
  culprit : Expr

/-- The text of the error. -/
def TooComplex.message (error : TooComplex) : String :=
  "too complex: " ++ error.construct.reason ++ ": " ++ error.culprit.text

/-- What is wrong with the parameters of a lambda that are not one variable. -/
def Unsupported.ofParams : List Pattern → Unsupported
  | [] => emptyLambda
  | [_] => patternLambda
  | _ => multiPatternLambda

/-- What is wrong with a block that is neither empty nor binds one variable. -/
def Unsupported.ofBlock : List (Decl Expr) → Unsupported
  | [.value .wildcard _] => wildcardBinding
  | [.value pattern _] => if pattern.isIrrefutable then tupleBinding else refutableBinding
  | [.clause _ _ _] => functionClause
  | decls => if decls.any fun d => d.data?.isSome then dataDeclaration else severalDeclarations

namespace Core

mutual

/-- The core expression of a surface expression. -/
def ofExpr (e : Expr) : Except TooComplex Core :=
  match e with
  | .var name => .ok (.var name)
  | .lit literal => .ok (.const (.literal literal))
  | .con name => .ok (.const (.constructor name))
  | .prim primitive => .ok (.const (.primitive primitive))
  | .app func args => do
    let func ← ofExpr func
    return (← ofExprs args).foldl .app func
  | .tuple elements => do return .tuple (← ofExprs elements)
  | .lam [.var param] body => do return .lam param (← ofExpr body)
  | .lam params _ => .error ⟨.ofParams params, e⟩
  | .cond condition positive negative => do
    return .cond (← ofExpr condition) (← ofExpr positive) (← ofExpr negative)
  | .letIn [] body => ofExpr body
  | .letIn [.value (.var name) value] body => do
    return .letIn name (← ofExpr value) (← ofExpr body)
  | .letIn decls _ => .error ⟨.ofBlock decls, e⟩
  | .caseOf _ _ => .error ⟨.caseExpression, e⟩

/-- The core expressions of a list of surface expressions. -/
def ofExprs : List Expr → Except TooComplex (List Core)
  | [] => .ok []
  | e :: es => do return (← ofExpr e) :: (← ofExprs es)

end

end Core

end Clausal
