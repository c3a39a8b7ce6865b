import Clausal.Literal

/-!
# Patterns

Patterns stand in function clauses, lambda parameters, case arms and value declarations. A
pattern that consists of variables, wildcards and tuples alone is irrefutable: it can be bound by
projecting components, without a test.
-/

namespace Clausal

/-- A pattern. -/
inductive Pattern
  /-- Matches anything and binds it. -/
  | var (name : String)
  /-- Matches anything and binds nothing. -/
  | wildcard
  /-- Matches one literal. -/
  | lit (literal : Literal)
  /-- Matches a tuple of that many components. -/
  | tuple (elements : List Pattern)
  /-- Matches a value built with the constructor. -/
  | con (name : String) (args : List Pattern)

namespace Pattern

/-- The name of a variable pattern. -/
def asVar? : Pattern → Option String
  | .var name => some name
  | _ => none

/-- Whether a pattern is a variable. -/
def isVar (p : Pattern) : Bool := p.asVar?.isSome

mutual

/-- The names that a pattern binds, from left to right, with repetitions. -/
def boundNames : Pattern → List String
  | .var name => [name]
  | .wildcard | .lit _ => []
  | .tuple elements => boundNamesList elements
  | .con _ args => boundNamesList args

/-- The names that a list of patterns binds. -/
def boundNamesList : List Pattern → List String
  | [] => []
  | p :: ps => boundNames p ++ boundNamesList ps

end

/-- Whether a pattern binds the given name. -/
def binds (p : Pattern) (name : String) : Bool := p.boundNames.contains name

mutual

/-- Whether a pattern is made of variables, wildcards and tuples alone. -/
def isIrrefutable : Pattern → Bool
  | .var _ | .wildcard => true
  | .lit _ | .con _ _ => false
  | .tuple elements => areIrrefutable elements

/-- Whether every pattern of a list is irrefutable. -/
def areIrrefutable : List Pattern → Bool
  | [] => true
  | p :: ps => isIrrefutable p && areIrrefutable ps

end

/-- The names of a list of patterns are those of its members, in order. -/
theorem boundNamesList_eq_flatMap (ps : List Pattern) :
    boundNamesList ps = ps.flatMap boundNames := by
  induction ps with
  | nil => rfl
  | cons p ps ih => simp [boundNamesList, ih]

/-- All patterns of a list are irrefutable if each of them is. -/
theorem areIrrefutable_eq_all (ps : List Pattern) : areIrrefutable ps = ps.all isIrrefutable := by
  induction ps with
  | nil => rfl
  | cons p ps ih => simp [areIrrefutable, ih]

end Pattern

end Clausal
