import Clausal.Simplification.Rule
import Clausal.Total

/-!
# The weight of an expression

A measure that every rule lowers, wherever in an expression it applies. It counts what is left to
simplify, each item as often as the expansion of the matches around it may copy it: what stands
behind a pattern, as a later arm or a later declaration, is multiplied by one more than the number
of tests of the pattern.

This module holds the measure and bounds it for the expansion of matches:

* `Matching.weight_expand_le`: an expansion adds to its success at most one copy of the failure
  for each test;
* `Matching.weight_elaborate_le`: the same when a failure may be bound to a variable first;
* `Matching.weight_bindLazily_le`: binding the names of a pattern adds nothing.
-/

namespace Clausal

namespace Pattern

mutual

/-- How many tests the expansion of a match makes at most. -/
def tests : Pattern → Nat
  | .var _ | .wildcard => 0
  | .lit _ => 1
  | .tuple elements => 1 + testsList elements
  | .con _ args => 1 + testsList args

/-- The tests of a list of patterns together. -/
def testsList : List Pattern → Nat
  | [] => 0
  | p :: ps => tests p + testsList ps

end

/-- One for a pattern that is no variable. -/
def liftWeight (p : Pattern) : Nat := if p.isVar then 0 else 1

@[simp] theorem liftWeight_var (name : String) : (Pattern.var name).liftWeight = 0 := rfl

@[simp] theorem liftWeight_wildcard : Pattern.wildcard.liftWeight = 1 := rfl

@[simp] theorem liftWeight_tuple (elements : List Pattern) :
    (Pattern.tuple elements).liftWeight = 1 := rfl

theorem liftWeight_of_isVar_eq_false {p : Pattern} (h : p.isVar = false) : p.liftWeight = 1 := by
  simp [liftWeight, h]

end Pattern

namespace Expr

mutual

/-- The weight of an expression. -/
def weight : Expr → Nat
  | .var _ | .lit _ | .con _ | .prim _ => 0
  | .app func args => func.weight + weightList args
  | .tuple elements => weightList elements
  | .lam params body =>
    (params.length - 1) + 2 * total Pattern.liftWeight params + body.weight
  | .cond condition positive negative =>
    condition.weight + positive.weight + negative.weight
  | .letIn decls body => 2 * (decls.length - 1) + weightDecls decls + body.weight
  | .caseOf scrutinee arms => 1 + scrutinee.weight + weightArms arms

/-- The weight of a list of expressions. -/
def weightList : List Expr → Nat
  | [] => 0
  | e :: es => e.weight + weightList es

/-- The weight of a block of declarations. What follows a clause is multiplied, since the clauses
of a name become the arms of a case. -/
def weightDecls : List (Decl Expr) → Nat
  | [] => 0
  | .clause _ params body :: ds =>
    1 + params.length + body.weight + (1 + (Pattern.tuple params).tests) * weightDecls ds
  | .value pattern body :: ds => pattern.liftWeight + body.weight + weightDecls ds
  | .data _ :: ds => weightDecls ds

/-- The weight of the arms of a case, each multiplied for the arms before it. -/
def weightArms : List (Arm Expr) → Nat
  | [] => 0
  | ⟨pattern, body⟩ :: arms => body.weight + (1 + pattern.tests) * weightArms arms

end

end Expr

/-! ## Expansion of matches -/

namespace Matching

/-- A test or projection weighs what it is applied to. -/
theorem weight_probe (primitive : Primitive) (s : Expr) :
    (probe primitive s).weight = s.weight := by
  simp [probe, Expr.app1, Expr.weight, Expr.weightList]

/-- So does each component of a tuple. -/
theorem weight_of_mem_selectors {size : Nat} {s part : Expr} (h : part ∈ selectors size s) :
    part.weight = s.weight := by
  simp only [selectors, List.mem_map] at h
  obtain ⟨i, -, rfl⟩ := h
  exact weight_probe _ s

/-- So does each part of a value. -/
theorem weight_of_mem_parts {count : Nat} {s part : Expr} (h : part ∈ parts count s) :
    part.weight = s.weight := by
  unfold parts at h
  split at h
  · rw [List.mem_singleton.1 h]
  · exact weight_of_mem_selectors h

/-- Binding a name adds the weight of its value. -/
theorem weight_bindName (name : String) (s body : Expr) :
    (bindName name s body).weight ≤ body.weight + s.weight := by
  unfold bindName
  split
  · split <;> simp [Expr.app1, Expr.lam1, Expr.weight, Expr.weightList]
  · simp [Expr.app1, Expr.lam1, Expr.weight, Expr.weightList]

/-- The members of a list without weight have none. -/
theorem weight_eq_zero_of_mem {es : List Expr} (h : Expr.weightList es = 0) :
    ∀ e ∈ es, e.weight = 0 := by
  induction es with
  | nil => simp
  | cons a as ih =>
    simp only [Expr.weightList] at h
    intro e he
    rcases List.mem_cons.1 he with rfl | he
    · omega
    · exact ih (by omega) e he

/-- The components that an expression without weight shows have none. -/
theorem weight_of_mem_components? {count : Nat} {s : Expr} {parts : List Expr}
    (hs : s.weight = 0) (h : components? count s = some parts) :
    ∀ part ∈ parts, part.weight = 0 := by
  unfold components? at h
  split at h
  · split at h
    · obtain rfl := Option.some.inj h
      exact weight_eq_zero_of_mem (by simpa [Expr.weight] using hs)
    · contradiction
  · contradiction

mutual

/-- The expansion of a match adds no weight to the success, and to the failure only by copying
it once for each test. -/
theorem weight_expand_le (p : Pattern) (s success failure : Expr) (hs : s.weight = 0) :
    (expand p s success failure).weight ≤ success.weight + p.tests * failure.weight := by
  match p with
  | .var name =>
    have := weight_bindName name s success
    simp only [expand, Pattern.tests]
    omega
  | .wildcard => simp [expand, Pattern.tests]
  | .lit literal =>
    simp only [expand, Pattern.tests, Expr.weight, weight_probe]
    omega
  | .con name args =>
    -- one copy of the failure for the test of the constructor, the others for the fields
    have := weight_expandAll_le args (parts args.length (probe (.argOf name) s)) success failure
      fun part h => by rw [weight_of_mem_parts h, weight_probe, hs]
    simp only [expand, Pattern.tests, Expr.weight, weight_probe, Nat.add_mul, Nat.one_mul]
    omega
  | .tuple elements =>
    simp only [expand, Pattern.tests, Nat.add_mul, Nat.one_mul]
    split
    · next components h =>
      have := weight_expandAll_le elements components success failure
        (weight_of_mem_components? hs h)
      omega
    · have := weight_expandAll_le elements (parts elements.length s) success failure
        fun part h => by rw [weight_of_mem_parts h, hs]
      split
      · omega
      · simp only [Expr.weight, weight_probe]
        omega

/-- The same for patterns matched one after the other. -/
theorem weight_expandAll_le (ps : List Pattern) (ss : List Expr) (success failure : Expr)
    (hs : ∀ s ∈ ss, s.weight = 0) :
    (expandAll ps ss success failure).weight
      ≤ success.weight + Pattern.testsList ps * failure.weight := by
  match ps, ss with
  | [], _ => simp [expandAll]
  | _ :: _, [] => simp [expandAll]
  | p :: ps, s :: ss =>
    have first := weight_expand_le p s (expandAll ps ss success failure) failure
      (hs s List.mem_cons_self)
    have others := weight_expandAll_le ps ss success failure
      fun s h => hs s (List.mem_cons_of_mem _ h)
    simp only [expandAll, Pattern.testsList, Nat.add_mul]
    omega

end

/-- A failure that is bound to a variable is there once, and the copies of the variable weigh
nothing. -/
theorem weight_elaborate_le (share : Bool) (p : Pattern) (s success failure : Expr)
    (supply : FreshSupply) (hs : s.weight = 0) :
    (elaborate share p s success failure supply).1.weight
      ≤ success.weight + (1 + p.tests) * failure.weight := by
  have hcopied := weight_expand_le p s success failure hs
  simp only [elaborate, Nat.add_mul, Nat.one_mul]
  split
  -- the failure is bound to the next variable of the supply
  · have hbound := weight_expand_le p s success (.var supply.draw.1) hs
    simp only [Expr.weight, Nat.mul_zero, Nat.add_zero] at hbound
    simp only [Expr.app1, Expr.lam1, Expr.weight, Expr.weightList, Pattern.liftWeight_var,
      List.length_singleton, total_cons, total_nil]
    omega
  · dsimp only
    omega

mutual

/-- Binding the names of a pattern to the parts of an expression without weight adds nothing. -/
theorem weight_bindLazily_le (p : Pattern) (s body : Expr) (hs : s.weight = 0) :
    (bindLazily p s body).weight ≤ body.weight := by
  match p with
  | .var name =>
    have := weight_bindName name s body
    simp only [bindLazily]
    omega
  | .wildcard => simp [bindLazily]
  | .lit literal =>
    have := weight_expand_le (.lit literal) s body .bot hs
    simpa [bindLazily, Expr.bot, Expr.weight] using this
  | .con name args =>
    have := weight_expand_le (.con name args) s body .bot hs
    simpa [bindLazily, Expr.bot, Expr.weight] using this
  | .tuple elements =>
    exact weight_bindAllLazily_le elements _ body
      fun part h => by rw [weight_of_mem_parts h, hs]

/-- The same for patterns bound one after the other. -/
theorem weight_bindAllLazily_le (ps : List Pattern) (ss : List Expr) (body : Expr)
    (hs : ∀ s ∈ ss, s.weight = 0) : (bindAllLazily ps ss body).weight ≤ body.weight := by
  match ps, ss with
  | [], _ => simp [bindAllLazily]
  | _ :: _, [] => simp [bindAllLazily]
  | p :: ps, s :: ss =>
    have first := weight_bindLazily_le p s (bindAllLazily ps ss body) (hs s List.mem_cons_self)
    have others := weight_bindAllLazily_le ps ss body fun s h => hs s (List.mem_cons_of_mem _ h)
    simp only [bindAllLazily]
    omega

end

end Matching

end Clausal
