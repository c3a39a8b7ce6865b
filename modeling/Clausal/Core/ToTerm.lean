import Clausal.Core
import Clausal.Term.Substitution

/-!
# Lambda terms of core expressions

A conditional is an application of the branch primitive, a tuple one of its constructor, and a
binding is replaced by the fixpoint of its value. A free name that a primitive has stands for the
primitive; a binding of the name shadows it.
-/

namespace Clausal

/-- The term of a name in the scope of some bound names. -/
def Term.ofName (scope : List String) (name : String) : Term :=
  if scope.contains name then .var name
  else match Primitive.ofName? name with
    | some primitive => .primitive primitive
    | none => .var name

/-- The recursive definition of a name: the fixpoint of its value as a function of the name. -/
def Term.recursive (name : String) (value : Term) : Term :=
  .app (.primitive .fix) (.abs name value)

namespace Core

mutual

/-- The lambda term of a core expression in the scope of some bound names. -/
def toTermIn (scope : List String) : Core → Term
  | .var name => .ofName scope name
  | .const c => .const c
  | .app func arg => .app (toTermIn scope func) (toTermIn scope arg)
  | .tuple [element] => toTermIn scope element
  | .tuple elements =>
    (Term.primitive (.tuple elements.length)).applyAll (toTermsIn scope elements)
  | .cond condition positive negative =>
    (Term.primitive .branch).applyAll
      [toTermIn scope condition, toTermIn scope positive, toTermIn scope negative]
  | .lam param body => .abs param (toTermIn (param :: scope) body)
  | .letIn name value body =>
    (toTermIn (name :: scope) body).subst name (.recursive name (toTermIn (name :: scope) value))

/-- The lambda terms of a list of core expressions. -/
def toTermsIn (scope : List String) : List Core → List Term
  | [] => []
  | e :: es => toTermIn scope e :: toTermsIn scope es

end

/-- The lambda term of a core expression. -/
def toTerm (e : Core) : Term := e.toTermIn []

end Core

end Clausal
