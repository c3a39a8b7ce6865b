/-!
# Data declarations

An algebraic data type with its parameters, its constructors and the types of their fields.
-/

namespace Clausal

/-- A field type as a data declaration writes it. The primitive types are type constructors
without arguments. -/
inductive TypeExpr
  | var (name : String)
  | con (name : String) (args : List TypeExpr)
  | tuple (elements : List TypeExpr)
  | func (source target : TypeExpr)

namespace TypeExpr

mutual

/-- Whether two field types are the same. -/
def same : TypeExpr → TypeExpr → Bool
  | .var a, .var b => a == b
  | .con a as, .con b bs => a == b && sameList as bs
  | .tuple as, .tuple bs => sameList as bs
  | .func a a', .func b b' => same a b && same a' b'
  | _, _ => false

/-- Whether two lists of field types are the same. -/
def sameList : List TypeExpr → List TypeExpr → Bool
  | [], [] => true
  | a :: as, b :: bs => same a b && sameList as bs
  | _, _ => false

end

mutual

/-- The comparison of field types decides their equality. -/
theorem same_iff : ∀ a b : TypeExpr, same a b = true ↔ a = b
  | .var a, b => by cases b <;> simp [same]
  | .con a as, b => by cases b <;> simp [same, sameList_iff as]
  | .tuple as, b => by cases b <;> simp [same, sameList_iff as]
  | .func a a', b => by cases b <;> simp [same, same_iff a, same_iff a']

/-- The comparison of lists of field types decides their equality. -/
theorem sameList_iff : ∀ as bs : List TypeExpr, sameList as bs = true ↔ as = bs
  | [], bs => by cases bs <;> simp [sameList]
  | a :: as, bs => by cases bs <;> simp [sameList, same_iff a, sameList_iff as]

end

instance : DecidableEq TypeExpr := fun a b => decidable_of_iff _ (same_iff a b)

end TypeExpr

/-- A constructor with the types of its fields. -/
structure ConstructorDecl where
  /-- The constructor. -/
  name : String
  /-- The types of its fields, in order. -/
  fields : List TypeExpr
  deriving DecidableEq

/-- The declaration of a data type. -/
structure DataDecl where
  /-- The type. -/
  name : String
  /-- Its parameters, in order. -/
  params : List String
  /-- Its constructors, in order. -/
  constructors : List ConstructorDecl
  deriving DecidableEq

/-- The constructor of a data type with the given name. -/
def DataDecl.constructor? (d : DataDecl) (name : String) : Option ConstructorDecl :=
  d.constructors.find? fun c => c.name == name

end Clausal
