import Clausal.FreshSupply

/-!
# Expanding pattern matches

`Matching.expand p s success failure` is the expression that evaluates `success` with the names
of `p` bound to the parts of `s` if `p` matches `s`, and `failure` otherwise. It is made of tests,
projections and conditionals. The parts of a value are matched from left to right, the first
outermost, and `failure` is copied to every test.

`Matching.elaborate` decides beforehand whether the copies of `failure` are all right, and binds
it to a fresh variable if not. `Matching.bindLazily` binds the names of an irrefutable pattern
without any test.
-/

namespace Clausal.Matching

/-- The application of a primitive to an expression. -/
def probe (primitive : Primitive) (scrutinee : Expr) : Expr :=
  .app1 (.prim primitive) scrutinee

/-- The components of a tuple of the given size, in order. -/
def selectors (size : Nat) (scrutinee : Expr) : List Expr :=
  (List.range size).map fun i => probe (.select size (i + 1)) scrutinee

/-- The parts of a value that has `count` of them: the value itself if it has one part, and the
components of the tuple that it is otherwise. -/
def parts (count : Nat) (value : Expr) : List Expr :=
  if count = 1 then [value] else selectors count value

/-- Binds a name to an expression, unless the expression is that very name. -/
def bindName (name : String) (scrutinee body : Expr) : Expr :=
  match scrutinee with
  | .var other => if other = name then body else .app1 (.lam1 name body) scrutinee
  | _ => .app1 (.lam1 name body) scrutinee

/-- The components that a tuple expression shows, if it has as many as there are patterns. -/
def components? (count : Nat) : Expr → Option (List Expr)
  | .tuple elements => if elements.length = count then some elements else none
  | _ => none

mutual

/-- The expression that matches one pattern. The scrutinee is copied to every test and
projection. A tuple pattern takes a tuple expression of its size apart without a test, and a
tuple pattern of one component stands for the component. -/
def expand (pattern : Pattern) (scrutinee success failure : Expr) : Expr :=
  match pattern with
  | .var name => bindName name scrutinee success
  | .wildcard => success
  | .lit literal => .cond (probe (.isLiteral literal) scrutinee) success failure
  | .con name args =>
    .cond (probe (.isConstructor name) scrutinee)
      (expandAll args (parts args.length (probe (.argOf name) scrutinee)) success failure) failure
  | .tuple elements =>
    match components? elements.length scrutinee with
    | some components => expandAll elements components success failure
    | none =>
      let matched := expandAll elements (parts elements.length scrutinee) success failure
      if elements.length = 1 then matched
      else .cond (probe (.isTuple elements.length) scrutinee) matched failure

/-- The expression that matches patterns with the expressions at the same place, one after the
other, the first outermost. -/
def expandAll (patterns : List Pattern) (scrutinees : List Expr) (success failure : Expr) : Expr :=
  match patterns, scrutinees with
  | pattern :: patterns, scrutinee :: scrutinees =>
    expand pattern scrutinee (expandAll patterns scrutinees success failure) failure
  | _, _ => success

end

@[simp] theorem expandAll_nil_left (scrutinees : List Expr) (success failure : Expr) :
    expandAll [] scrutinees success failure = success := by
  rw [expandAll]
  exact nofun

@[simp] theorem expandAll_nil_right (patterns : List Pattern) (success failure : Expr) :
    expandAll patterns [] success failure = success := by
  rw [expandAll]
  exact nofun

mutual

/-- How many copies of the failure the expansion of a match holds. No scrutinee is given for a
projection, which shows no components. -/
def failureCopies (pattern : Pattern) (scrutinee? : Option Expr) : Nat :=
  match pattern with
  | .var _ | .wildcard => 0
  | .lit _ => 1
  | .con _ args => 1 + failureCopiesAll args (List.replicate args.length none)
  | .tuple elements =>
    match scrutinee?.bind (components? elements.length) with
    | some components => failureCopiesAll elements (components.map some)
    | none =>
      if elements.length = 1 then failureCopiesAll elements [scrutinee?]
      else 1 + failureCopiesAll elements (List.replicate elements.length none)

/-- The copies of the failure for patterns matched with the scrutinees at the same place. -/
def failureCopiesAll (patterns : List Pattern) (scrutinees : List (Option Expr)) : Nat :=
  match patterns, scrutinees with
  | pattern :: patterns, scrutinee? :: scrutinees =>
    failureCopies pattern scrutinee? + failureCopiesAll patterns scrutinees
  | _, _ => 0

end

/-- The expansion of a match, in which a failure that is not to be copied is bound to a fresh
variable. That is a failure with a free variable that the pattern binds, which a copy would
capture; and, if `share` asks for it, a failure that is no leaf and would be copied more than
once. -/
def elaborate (share : Bool) (pattern : Pattern) (scrutinee success failure : Expr)
    (supply : FreshSupply) : Expr × FreshSupply :=
  let uses := failureCopies pattern (some scrutinee)
  let captured := pattern.boundNames.any fun name => failure.free.contains name
  let shared := share && 1 < uses && !failure.isTrivial
  if 0 < uses && (captured || shared) then
    let (name, supply) := supply.draw
    (.app1 (.lam1 name (expand pattern scrutinee success (.var name))) failure, supply)
  else
    (expand pattern scrutinee success failure, supply)

mutual

/-- Binds the names of an irrefutable pattern to projections, so that a recursive binding unfolds
only as far as needed. A pattern that can fail is matched instead, and fails with `bot`. -/
def bindLazily (pattern : Pattern) (scrutinee body : Expr) : Expr :=
  match pattern with
  | .var name => bindName name scrutinee body
  | .wildcard => body
  | .tuple elements => bindAllLazily elements (parts elements.length scrutinee) body
  | .lit literal => expand (.lit literal) scrutinee body .bot
  | .con name args => expand (.con name args) scrutinee body .bot

/-- Binds the names of patterns to the expressions at the same place, the first outermost. -/
def bindAllLazily (patterns : List Pattern) (scrutinees : List Expr) (body : Expr) : Expr :=
  match patterns, scrutinees with
  | pattern :: patterns, scrutinee :: scrutinees =>
    bindLazily pattern scrutinee (bindAllLazily patterns scrutinees body)
  | _, _ => body

end

end Clausal.Matching
