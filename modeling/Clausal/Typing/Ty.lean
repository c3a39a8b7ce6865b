/-!
# Types

A type is a variable, or a type constructor applied to types. Functions, tuples and data types are
all of the second form, so that whatever traverses types has two cases.
-/

namespace Clausal

/-- A type variable. Variables are the same if both their numbers and their names are. -/
structure TypeVar where
  /-- The number. -/
  id : Nat
  /-- The name that a data declaration gives to a parameter. -/
  name : Option String
  deriving DecidableEq

namespace TypeVar

/-- The variable without a name that has a number. -/
def numbered (id : Nat) : TypeVar := ⟨id, none⟩

/-- The text of a variable: its name, or its number after a `t`. -/
def text (v : TypeVar) : String :=
  match v.name with
  | some name => "'" ++ name
  | none => "'t" ++ toString v.id

/-- The order of variables: by number, then those without a name first, then by name. -/
def le (a b : TypeVar) : Bool :=
  if a.id = b.id then
    match a.name, b.name with
    | none, _ => true
    | some _, none => false
    | some a, some b => decide (a ≤ b)
  else a.id < b.id

end TypeVar

/-- A type constructor. -/
inductive TyCon
  | int
  | float
  | char
  | bool
  /-- Tuples of every size. -/
  | tuple
  /-- Functions, from the first argument to the second. -/
  | arrow
  /-- A declared data type. -/
  | data (name : String)
  deriving DecidableEq

/-- A type. -/
inductive Ty
  | var (v : TypeVar)
  /-- A type constructor applied to types. -/
  | con (constructor : TyCon) (args : List Ty)

namespace Ty

@[match_pattern] abbrev int : Ty := .con .int []
@[match_pattern] abbrev float : Ty := .con .float []
@[match_pattern] abbrev char : Ty := .con .char []
@[match_pattern] abbrev bool : Ty := .con .bool []
@[match_pattern] abbrev tuple (elements : List Ty) : Ty := .con .tuple elements
@[match_pattern] abbrev arrow (source target : Ty) : Ty := .con .arrow [source, target]
@[match_pattern] abbrev data (name : String) (args : List Ty) : Ty := .con (.data name) args

/-- The variable without a name that has a number. -/
def numbered (id : Nat) : Ty := .var (.numbered id)

/-- The type of a function of several arguments. -/
def arrows (params : List Ty) (result : Ty) : Ty := params.foldr arrow result

/-- The variable that a type is, if it is one. -/
def asVar? : Ty → Option TypeVar
  | .var v => some v
  | _ => none

mutual

/-- The number of nodes. -/
def size : Ty → Nat
  | .var _ => 1
  | .con _ args => sizeList args + 1

/-- The number of nodes of a list of types. -/
def sizeList : List Ty → Nat
  | [] => 0
  | t :: ts => size t + sizeList ts

end

mutual

/-- The variables of a type, from left to right, each as often as it appears. -/
def vars : Ty → List TypeVar
  | .var v => [v]
  | .con _ args => varsList args

/-- The variables of a list of types. -/
def varsList : List Ty → List TypeVar
  | [] => []
  | t :: ts => vars t ++ varsList ts

end

/-- The variables of a type in order of first appearance. -/
def distinctVars (t : Ty) : List TypeVar := t.vars.eraseDups

mutual

/-- The type with a type for each of its variables. -/
def bind (image : TypeVar → Ty) : Ty → Ty
  | .var v => image v
  | .con c args => .con c (bindList image args)

/-- The types of a list with a type for each of their variables. -/
def bindList (image : TypeVar → Ty) : List Ty → List Ty
  | [] => []
  | t :: ts => bind image t :: bindList image ts

end

/-- The type with its variables numbered in order of first appearance. -/
def normalized (t : Ty) : Ty := t.bind fun v => .numbered (t.distinctVars.idxOf v)

/-! ## Laws -/

theorem size_pos (t : Ty) : 0 < t.size := by
  cases t <;> simp [size]

mutual

/-- The variables of an image are those of the images of the variables. -/
theorem vars_bind (image : TypeVar → Ty) (t : Ty) :
    (t.bind image).vars = t.vars.flatMap fun v => (image v).vars := by
  match t with
  | .var v => simp [bind, vars]
  | .con c args => simp only [bind, vars, varsList_bindList image args]

/-- The same for a list of types. -/
theorem varsList_bindList (image : TypeVar → Ty) (ts : List Ty) :
    varsList (bindList image ts) = (varsList ts).flatMap fun v => (image v).vars := by
  match ts with
  | [] => rfl
  | t :: ts =>
    simp only [bindList, varsList, vars_bind image t, varsList_bindList image ts,
      List.flatMap_append]

end

mutual

/-- One substitution after another. -/
theorem bind_bind (image image' : TypeVar → Ty) (t : Ty) :
    (t.bind image).bind image' = t.bind fun v => (image v).bind image' := by
  match t with
  | .var v => rfl
  | .con c args => simp only [bind, bindList_bindList image image' args]

/-- The same for a list of types. -/
theorem bindList_bindList (image image' : TypeVar → Ty) (ts : List Ty) :
    bindList image' (bindList image ts) = bindList (fun v => (image v).bind image') ts := by
  match ts with
  | [] => rfl
  | t :: ts =>
    simp only [bindList, bind_bind image image' t, bindList_bindList image image' ts]

end

end Ty

end Clausal
