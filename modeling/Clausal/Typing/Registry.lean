import Clausal.Surface.Data
import Clausal.Typing.Ty

/-!
# The registry of data types

The data types that type inference knows, in the order in which they were added. A declaration is
added only if it is sound by itself and agrees with those before it, so a registry never holds two
types or two constructors of one name, and every field is a type that makes sense.
-/

namespace Clausal

/-- What is wrong with the type of a field. -/
inductive FieldFault
  /-- A type variable is no parameter of the declaration. -/
  | undeclaredVariable (name : String)
  /-- A type is not known. -/
  | unknownType (name : String)
  /-- A type is applied to the wrong number of types. -/
  | argumentCount (name : String) (expected found : Nat)
  deriving DecidableEq

/-- The text of the fault. -/
def FieldFault.reason : FieldFault → String
  | undeclaredVariable name => "undeclared type variable `" ++ name ++ "`"
  | unknownType name => "unknown type `" ++ name ++ "`"
  | argumentCount name expected found =>
    "type `" ++ name ++ "` expects " ++ toString expected ++ " arguments, found "
      ++ toString found

/-- Why a data declaration is rejected. -/
inductive Inconsistency
  /-- Another declaration of the type has been added. -/
  | redefinition
  /-- The type is built in. -/
  | primitiveType
  /-- Two parameters have one name. -/
  | duplicateParam (param : String)
  /-- Two constructors of the declaration have one name. -/
  | duplicateConstructor (constructor : String)
  /-- A constructor belongs to another type. -/
  | foreignConstructor (constructor owner : String)
  /-- The type of a field of a constructor is wrong. -/
  | field (constructor : String) (fault : FieldFault)
  deriving DecidableEq

/-- The text of the reason. -/
def Inconsistency.reason : Inconsistency → String
  | redefinition => "type is already declared with a different definition"
  | primitiveType => "primitive types cannot be redeclared"
  | duplicateParam param => "duplicate type parameter `" ++ param ++ "`"
  | duplicateConstructor constructor => "constructor `" ++ constructor ++ "` is declared twice"
  | foreignConstructor constructor owner =>
    "constructor `" ++ constructor ++ "` already belongs to `" ++ owner ++ "`"
  | field constructor fault => "constructor `" ++ constructor ++ "`: " ++ fault.reason

/-- The built-in types by their names. -/
def TyCon.primitives : List (String × TyCon) :=
  [("Int", .int), ("Float", .float), ("Char", .char), ("Bool", .bool)]

/-- Whether a name is that of a built-in type. -/
def isPrimitiveType (name : String) : Bool := (TyCon.primitives.lookup name).isSome

/-- The data types that have been added. -/
structure Registry where
  /-- The declarations, in order. -/
  decls : List DataDecl

/-- The type of a constructor: for all types for `vars`, a function from `fields` to `result`. -/
structure ConstructorType where
  /-- The parameters of the data type. -/
  vars : List TypeVar
  /-- The types of the fields. -/
  fields : List Ty
  /-- The data type applied to its parameters. -/
  result : Ty

mutual

/-- The type of a field of a data type with the given parameters. A parameter becomes the variable
with its position and its name. -/
def Ty.ofField (params : List String) : TypeExpr → Ty
  | .var name => .var ⟨params.idxOf name, some name⟩
  | .con name args =>
    match TyCon.primitives.lookup name, args with
    | some c, [] => .con c []
    | _, _ => .data name (Ty.ofFields params args)
  | .tuple elements => .tuple (Ty.ofFields params elements)
  | .func source target => .arrow (Ty.ofField params source) (Ty.ofField params target)

/-- The types of several fields. -/
def Ty.ofFields (params : List String) : List TypeExpr → List Ty
  | [] => []
  | t :: ts => Ty.ofField params t :: Ty.ofFields params ts

end

namespace Registry

/-- The registry without data types. -/
def empty : Registry := ⟨[]⟩

/-- The number of data types. -/
def size (r : Registry) : Nat := r.decls.length

/-- The declaration of a type. -/
def declaration? (r : Registry) (name : String) : Option DataDecl :=
  r.decls.find? fun d => d.name == name

/-- The declaration that a constructor belongs to, and the constructor. -/
def owner? (r : Registry) (constructor : String) : Option (DataDecl × ConstructorDecl) :=
  r.decls.findSome? fun d => (d.constructor? constructor).map (d, ·)

/-- The type of a constructor. -/
def constructorType? (r : Registry) (constructor : String) : Option ConstructorType :=
  (r.owner? constructor).map fun (d, c) =>
    let vars := d.params.zipIdx.map fun (param, i) => ⟨i, some param⟩
    ⟨vars, Ty.ofFields d.params c.fields, .data d.name (vars.map .var)⟩

/-! ## Adding declarations -/

/-- How many arguments a type takes in a declaration: it is built in, the declared type itself, or
one added before. -/
def paramCount? (r : Registry) (d : DataDecl) (name : String) : Option Nat :=
  if isPrimitiveType name then some 0
  else if name = d.name then some d.params.length
  else (r.declaration? name).map fun known => known.params.length

mutual

/-- The first fault of a field, from left to right and from the outside in. -/
def fieldFault? (r : Registry) (d : DataDecl) : TypeExpr → Option FieldFault
  | .var name => if d.params.contains name then none else some (.undeclaredVariable name)
  | .con name args =>
    match r.paramCount? d name with
    | none => some (.unknownType name)
    | some expected =>
      if args.length = expected then fieldsFault? r d args
      else some (.argumentCount name expected args.length)
  | .tuple elements => fieldsFault? r d elements
  | .func source target => (fieldFault? r d source).or (fieldFault? r d target)

/-- The first fault of several fields. -/
def fieldsFault? (r : Registry) (d : DataDecl) : List TypeExpr → Option FieldFault
  | [] => none
  | t :: ts => (fieldFault? r d t).or (fieldsFault? r d ts)

end

/-- The first name of a list that is among those before it or among those given. -/
def firstRepeated? (before : List String) : List String → Option String
  | [] => none
  | name :: names =>
    if before.contains name then some name else firstRepeated? (name :: before) names

/-- What is wrong with a constructor that comes after constructors of the given names. -/
def constructorFault? (r : Registry) (d : DataDecl) (before : List String) (c : ConstructorDecl) :
    Option Inconsistency :=
  if before.contains c.name then some (.duplicateConstructor c.name)
  else match r.owner? c.name with
    | some (owner, _) => some (.foreignConstructor c.name owner.name)
    | none => (fieldsFault? r d c.fields).map (.field c.name)

/-- The first fault of a list of constructors. -/
def constructorsFault? (r : Registry) (d : DataDecl) (before : List String) :
    List ConstructorDecl → Option Inconsistency
  | [] => none
  | c :: cs =>
    (constructorFault? r d before c).or (constructorsFault? r d (c.name :: before) cs)

/-- What is wrong with a declaration of a type that is not in the registry. -/
def fault? (r : Registry) (d : DataDecl) : Option Inconsistency :=
  if isPrimitiveType d.name then some .primitiveType
  else match firstRepeated? [] d.params with
    | some param => some (.duplicateParam param)
    | none => r.constructorsFault? d [] d.constructors

/-- Adds a declaration. One that is there already changes nothing. -/
def add (r : Registry) (d : DataDecl) : Except Inconsistency Registry :=
  match r.declaration? d.name with
  | some known => if known = d then .ok r else .error .redefinition
  | none => match r.fault? d with
    | some fault => .error fault
    | none => .ok ⟨r.decls ++ [d]⟩

end Registry

end Clausal
