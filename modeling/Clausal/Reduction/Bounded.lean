import Clausal.Reduction.Step

/-!
# Bounded reduction

Runs of reduction steps that may take a limited number of steps. In weak mode a run ends where no
step applies. In normal mode the arguments of the head are then reduced as well, from left to
right, and the steps of all of them count together; the whole is not looked at again.
-/

namespace Clausal

/-- How far a term is reduced. -/
inductive ReductionMode
  /-- To a term without a step. -/
  | weak
  /-- The arguments of the head as well. -/
  | normal
  deriving DecidableEq

/-- The result of a reduction. -/
structure Reduction where
  /-- The reduced term. -/
  term : Term
  /-- The number of steps. -/
  steps : Nat
  deriving DecidableEq

/-- A reduction needs more steps than it may take. -/
structure StepLimitExceeded where
  /-- The number of steps that it may take. -/
  limit : Nat
  deriving DecidableEq

/-- The text of the error. -/
def StepLimitExceeded.message (error : StepLimitExceeded) : String :=
  "reduction did not finish within " ++ toString error.limit ++ " steps"

namespace Term

/-- Steps until no step applies. The result is the term with the number of steps left, or nothing
if there are not enough. -/
def runWeak (rules : List DeltaRule) : Nat → Term → Option (Term × Nat)
  | budget, t =>
    match t.step? rules, budget with
    | none, _ => some (t, budget)
    | some _, 0 => none
    | some t, budget + 1 => runWeak rules budget t

/-- A run either takes steps or leaves the term as it is. -/
theorem runWeak_cases {rules : List DeltaRule} {budget left : Nat} {t t' : Term}
    (h : runWeak rules budget t = some (t', left)) :
    left < budget ∨ left = budget ∧ t' = t := by
  induction budget generalizing t with
  | zero =>
    unfold runWeak at h
    split at h <;> simp_all
  | succ budget ih =>
    unfold runWeak at h
    split at h
    · simp_all
    · contradiction
    · next budget' _ heq =>
      obtain rfl : budget = budget' := by simpa using heq
      have := ih h
      omega

mutual

/-- Reduces a term and then the arguments of its head. The number of steps left, which is part of
the result, is at most the number at the start. -/
def runNormal (rules : List DeltaRule) (budget : Nat) (t : Term) :
    Option { result : Term × Nat // result.2 ≤ budget } :=
  match _hweak : runWeak rules budget t with
  | none => none
  | some (t', left) =>
    (runNormalAll rules left t'.args).map fun ⟨(args, left'), hle⟩ =>
      ⟨(t'.head.applyAll args, left'), by have := runWeak_cases _hweak; omega⟩
termination_by (budget, t.size, 0)
decreasing_by
  have := total_size_args_lt t
  simp only [Prod.lex_def]
  rcases runWeak_cases _hweak with h | ⟨rfl, rfl⟩ <;> omega

/-- Reduces the terms of a list, one after the other. -/
def runNormalAll (rules : List DeltaRule) (budget : Nat) (ts : List Term) :
    Option { result : List Term × Nat // result.2 ≤ budget } :=
  match ts with
  | [] => some ⟨([], budget), Nat.le_refl _⟩
  | t :: ts =>
    match runNormal rules budget t with
    | none => none
    | some ⟨(t', left), hle⟩ =>
      (runNormalAll rules left ts).map fun ⟨(ts', left'), hle'⟩ =>
        ⟨(t' :: ts', left'), Nat.le_trans hle' hle⟩
termination_by (budget, total size ts, 1)
decreasing_by
  · simp only [Prod.lex_def, total_cons, true_and]
    omega
  · have := t.size_pos
    simp only [Prod.lex_def, total_cons]
    omega

end

/-- Reduces a term within a number of steps. -/
def reduce (rules : List DeltaRule) (mode : ReductionMode) (limit : Nat) (t : Term) :
    Except StepLimitExceeded Reduction :=
  let run := match mode with
    | .weak => runWeak rules limit t
    | .normal => (runNormal rules limit t).map Subtype.val
  match run with
  | some (t, left) => .ok ⟨t, limit - left⟩
  | none => .error ⟨limit⟩

end Term

end Clausal
