import Clausal.Term

/-!
# Substitution

Replaces the free occurrences of a variable by a term. A binder that would capture a free
variable of the replacement gets a fresh name: the name without the digits at its end, followed by
the least number that makes it different from every variable around.

The change of a binder is itself a substitution, of a variable for a variable; `rename` is that
special case. It keeps the size of a term, and so both functions recur on sizes.
-/

namespace Clausal.Term

/-- A name without the ASCII digits at its end; `v` if nothing is left. -/
def stem (name : String) : String :=
  let kept := (name.toList.reverse.dropWhile Char.isDigit).reverse
  if kept.isEmpty then "v" else String.ofList kept

/-- The first of the stem of a name followed by `0`, `1`, … that is not to be avoided. -/
def freshName (name : String) (avoid : List String) : String :=
  let candidates := (List.range (avoid.length + 1)).map fun i => stem name ++ toString i
  (candidates.find? fun candidate => !avoid.contains candidate).getD name

/-- The term with one variable for another, and the fact that the size stays. -/
def renameSized (old new : String) (t : Term) : { t' : Term // t'.size = t.size } :=
  match t with
  | .var name => ⟨.var (if name = old then new else name), rfl⟩
  | .const c => ⟨.const c, rfl⟩
  | .app func arg =>
    let func' := renameSized old new func
    let arg' := renameSized old new arg
    ⟨.app func' arg', by simp only [size, func'.2, arg'.2]⟩
  | .abs param body =>
    if param = old then ⟨.abs param body, rfl⟩
    else if param = new then
      let fresh := freshName param (body.free ++ [new, old])
      have ⟨freed, hfreed⟩ := renameSized param fresh body
      let body' := renameSized old new freed
      ⟨.abs fresh body', by simp only [size, body'.2, hfreed]⟩
    else
      let body' := renameSized old new body
      ⟨.abs param body', by simp only [size, body'.2]⟩
termination_by t.size
decreasing_by all_goals simp only [size]; omega

/-- The term with the variable `new` for the free occurrences of `old`. -/
def rename (old new : String) (t : Term) : Term := renameSized old new t

@[simp] theorem size_rename (old new : String) (t : Term) : (rename old new t).size = t.size :=
  (renameSized old new t).2

@[simp] theorem rename_var (old new name : String) :
    rename old new (.var name) = .var (if name = old then new else name) := by
  simp [rename, renameSized]

@[simp] theorem rename_const (old new : String) (c : Constant) :
    rename old new (.const c) = .const c := by
  simp [rename, renameSized]

@[simp] theorem rename_app (old new : String) (func arg : Term) :
    rename old new (.app func arg) = .app (rename old new func) (rename old new arg) := by
  simp [rename, renameSized]

theorem rename_abs (old new param : String) (body : Term) :
    rename old new (.abs param body) =
      if param = old then .abs param body
      else if param = new then
        let fresh := freshName param (body.free ++ [new, old])
        .abs fresh (rename old new (rename param fresh body))
      else .abs param (rename old new body) := by
  simp only [rename]
  rw [renameSized]
  split
  · rfl
  · split <;> rfl

/-- The term with a replacement, whose free variables are given, for the free occurrences of a
variable. -/
def substWith (name : String) (replacement : Term) (replacementFree : List String) (t : Term) :
    Term :=
  match t with
  | .var other => if other = name then replacement else .var other
  | .const c => .const c
  | .app func arg =>
    .app (substWith name replacement replacementFree func)
      (substWith name replacement replacementFree arg)
  | .abs param body =>
    if param = name then .abs param body
    else if replacementFree.contains param then
      let fresh := freshName param (body.free ++ replacementFree ++ [name])
      .abs fresh (substWith name replacement replacementFree (rename param fresh body))
    else .abs param (substWith name replacement replacementFree body)
termination_by t.size
decreasing_by all_goals simp only [size, size_rename]; omega

/-- The term with a replacement for the free occurrences of a variable. -/
def subst (t : Term) (name : String) (replacement : Term) : Term :=
  substWith name replacement replacement.free t

/-- A change of name is the substitution of a variable. -/
theorem subst_var (t : Term) (old new : String) : t.subst old (.var new) = rename old new t := by
  rw [subst]
  induction hsize : t.size using Nat.strongRecOn generalizing t old new with
  | ind n ih =>
    subst hsize
    have ih (t' : Term) (old new : String) (h : t'.size < t.size) :
        substWith old (.var new) [new] t' = rename old new t' := ih _ h t' old new rfl
    rw [substWith.eq_def]
    match t with
    | .var name => by_cases h : name = old <;> simp [h]
    | .const _ => simp
    | .app func arg =>
      simp only [free, rename_app]
      rw [ih func old new (by simp only [size]; omega), ih arg old new (by simp only [size]; omega)]
    | .abs param body =>
      rw [rename_abs]
      by_cases hold : param = old
      · simp [hold]
      by_cases hnew : param = new
      · simp only [free, hnew, if_true, List.contains_cons, beq_self_eq_true,
          Bool.true_or, List.append_assoc, List.singleton_append]
        rw [ih _ old new (by simp only [size, size_rename]; omega)]
      · simp only [free, hold, hnew, if_false, List.contains_cons, List.contains_nil,
          Bool.or_false, beq_eq_false_iff_ne.2 hnew, Bool.false_eq_true]
        rw [ih body old new (by simp only [size]; omega)]

end Clausal.Term
