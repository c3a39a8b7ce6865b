import Clausal.Names
import Clausal.Term.Printer
import Clausal.Typing.Signature

/-!
# Type inference

Infers the most general type of a lambda term. Each part of a term gives a substitution beside its
type, which is applied to all that is still at hand before the next part. Variables that a term
binds have one type throughout; only constants have a new instance of their type at every use.
-/

namespace Clausal

/-- The types of the variables in scope, the innermost first. -/
abbrev TypeEnv := List (String × Ty)

/-- A computation that draws fresh type variables, by their numbers, and may fail. The numbers
drawn before a failure stay used. -/
abbrev Inference (α : Type) := EStateM TypeError Nat α

namespace Inference

/-- A fresh type variable. -/
def fresh : Inference TypeVar := modifyGet fun next => (.numbered next, next + 1)

/-- A result that may be an error. -/
def ofExcept {α : Type} : Except TypeError α → Inference α
  | .ok a => pure a
  | .error error => throw error

/-- A type with fresh variables in the place of those of a scheme. -/
def instantiate (scheme : Scheme) : Inference Ty := do
  let bindings ← scheme.vars.mapM fun v => do return (v, Ty.var (← fresh))
  return (Subst.ofList bindings).apply scheme.type

/-- Infers the type of a term. The type has the substitution applied to it already. -/
def infer (r : Registry) (env : TypeEnv) : Term → Inference (Subst × Ty)
  | .var name =>
    match env.lookup name with
    | some t => return (.empty, t)
    | none => return (.empty, .var (← fresh))
  | .const c => do
    let scheme ← ofExcept (c.signature r)
    return (.empty, ← instantiate scheme)
  | .abs param body => do
    let paramType := Ty.var (← fresh)
    let (s, bodyType) ← infer r ((param, paramType) :: env) body
    return (s, .arrow (s.apply paramType) bodyType)
  | .app func arg => do
    let (s₁, funcType) ← infer r env func
    let (s₂, argType) ← infer r (env.map fun (name, t) => (name, s₁.apply t)) arg
    let result := Ty.var (← fresh)
    match unify (s₂.apply funcType) (.arrow argType result) with
    | .error error => throw (.ofUnifyError (Term.app func arg).text error)
    | .ok s₃ =>
      let s := (s₃.compose s₂).compose s₁
      return (s, s.apply result)

/-- The environment that gives each of some names a type of its own. -/
def assume (names : List String) : Inference TypeEnv :=
  names.foldlM (fun env name => do return (name, .var (← fresh)) :: env) []

end Inference

/-- The most general type of a term, its variables numbered in order of appearance. A free
variable has the same type wherever it appears. -/
def Term.type (r : Registry) (t : Term) : Except TypeError Ty :=
  let inference : Inference (Subst × Ty) := do
    let env ← Inference.assume (sortedNames t.free)
    Inference.infer r env t
  match inference.run 0 with
  | .ok (s, type) _ => .ok (s.apply type).normalized
  | .error error _ => .error error

end Clausal
