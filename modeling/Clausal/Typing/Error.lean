import Clausal.Primitive.Name
import Clausal.Typing.Registry
import Clausal.Typing.Unification

/-!
# Type errors

What can go wrong between the declaration of data types and the type of a term.
-/

namespace Clausal

/-- A type error. -/
inductive TypeError
  /-- A data declaration is rejected. -/
  | inconsistent (name : String) (inconsistency : Inconsistency)
  /-- A constructor belongs to no data type. -/
  | notFound (constructor : String)
  /-- Two types have no common instance. The context is the text that asks for one. -/
  | cannotUnify (expected found : Ty) (context : String)
  /-- A projection from tuples of a size has an index outside of them. -/
  | noSuchComponent (size index : Nat)

namespace TypeError

/-- The type error of a failed unification. A variable that would contain itself counts as the
expected type. -/
def ofUnifyError (context : String) : UnifyError → TypeError
  | .mismatch expected found => .cannotUnify expected found context
  | .occursCheck v t => .cannotUnify (.var v) t context

/-- The text of the error. -/
def message (error : TypeError) : String :=
  "Type error: " ++ match error with
    | inconsistent name inconsistency =>
      "inconsistent data declaration `" ++ name ++ "`: " ++ inconsistency.reason
    | notFound constructor => "no type for constant `" ++ constructor ++ "`"
    | cannotUnify expected found context =>
      "cannot unify " ++ expected.text ++ " with " ++ found.text ++ " (" ++ context ++ ")"
    | noSuchComponent size index =>
      "`" ++ (Primitive.select size index).name ++ "` is incorrectly typed: selector index "
        ++ toString index ++ " outside of a " ++ toString size ++ "-tuple"

end TypeError

/-- Adds a declaration to a registry, with the type error if it is rejected. -/
def Registry.declare (r : Registry) (d : DataDecl) : Except TypeError Registry :=
  (r.add d).mapError (.inconsistent d.name)

/-- Adds declarations, one after the other. -/
def Registry.declareAll (r : Registry) (ds : List DataDecl) : Except TypeError Registry :=
  ds.foldlM Registry.declare r

end Clausal
