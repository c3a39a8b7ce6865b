import Clausal.Constant
import Clausal.Typing.Error

/-!
# The types of constants

Literals and primitives have fixed types. The types of constructors, and of the primitives that
inspect them, come from the declaration of their data type.
-/

namespace Clausal

/-- A type for all types in the place of some variables. -/
structure Scheme where
  /-- The variables. -/
  vars : List TypeVar
  /-- The type. -/
  type : Ty

/-- The scheme that generalises over every variable of a type. -/
def Scheme.closed (t : Ty) : Scheme := ⟨t.distinctVars, t⟩

/-- The type of a literal. -/
def Literal.type : Literal → Ty
  | .int _ => .int
  | .float _ => .float
  | .char _ => .char
  | .bool _ => .bool

/-- The type of an operator. -/
def Operator.type : Operator → Ty
  | plus | minus | mult | div | mod => .arrows [.int, .int] .int
  | fplus | fminus | fmult | fdiv => .arrows [.float, .float] .float
  | eq | neq | lt | leq | gt | geq => .arrows [.numbered 0, .numbered 0] .bool
  | and | or => .arrows [.bool, .bool] .bool
  | not => .arrow .bool .bool
  | negate => .arrow .int .int

/-- The first variables, as many as a tuple has components. -/
def Ty.components (size : Nat) : List Ty := (List.range size).map .numbered

/-- The type of a constructor that has one. -/
def Registry.constructorType (r : Registry) (constructor : String) :
    Except TypeError ConstructorType :=
  match r.constructorType? constructor with
  | some t => .ok t
  | none => .error (.notFound constructor)

/-- The type of the fields of a value: that of the field if there is one, otherwise their tuple. -/
def Ty.packed : List Ty → Ty
  | [field] => field
  | fields => .tuple fields

/-- The type of a primitive, for all types in the place of its variables. -/
def Primitive.signature (r : Registry) : Primitive → Except TypeError Scheme
  | .operator op => .ok (.closed op.type)
  | .branch => .ok (.closed (.arrows [.bool, .numbered 0, .numbered 0] (.numbered 0)))
  | .fix => .ok (.closed (.arrow (.arrow (.numbered 0) (.numbered 0)) (.numbered 0)))
  | .bot => .ok (.closed (.numbered 0))
  | .tuple size => .ok (.closed (.arrows (Ty.components size) (.tuple (Ty.components size))))
  | .isTuple size => .ok (.closed (.arrow (.tuple (Ty.components size)) .bool))
  | .select size index =>
    if 1 ≤ index ∧ index ≤ size then
      .ok (.closed (.arrow (.tuple (Ty.components size)) (.numbered (index - 1))))
    else .error (.noSuchComponent size index)
  | .isConstructor name => do
    let t ← r.constructorType name
    return ⟨t.vars, .arrow t.result .bool⟩
  | .argOf name => do
    let t ← r.constructorType name
    return ⟨t.vars, .arrow t.result (.packed t.fields)⟩
  | .isLiteral literal => .ok (.closed (.arrow literal.type .bool))

/-- The type of a constant, for all types in the place of its variables. -/
def Constant.signature (r : Registry) : Constant → Except TypeError Scheme
  | .literal value => .ok ⟨[], value.type⟩
  | .constructor name => do
    let t ← r.constructorType name
    return ⟨t.vars, .arrows t.fields t.result⟩
  | .primitive p => p.signature r

end Clausal
