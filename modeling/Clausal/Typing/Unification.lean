import Clausal.Total
import Clausal.Typing.Printer
import Clausal.Typing.Substitution

/-!
# Unification

Solves a list of equations between types from left to right. Two applied constructors give the
equations of their arguments; a variable is replaced everywhere by the other side. Each
replacement removes a variable from the equations that are left, which is why the solution ends.
-/

namespace Clausal

/-- Why two types have no common instance. -/
inductive UnifyError
  /-- Two types are built differently. -/
  | mismatch (expected found : Ty)
  /-- A variable would have to contain itself. -/
  | occursCheck (v : TypeVar) (t : Ty)

/-- The text of the error. -/
def UnifyError.message : UnifyError → String
  | .mismatch expected found =>
    "type mismatch: expected " ++ expected.text ++ ", found " ++ found.text
  | .occursCheck v t => "cannot construct infinite type " ++ v.text ++ " = " ++ t.text

namespace Unification

/-- Equations between types. -/
abbrev Equations := List (Ty × Ty)

/-- The variables of equations. -/
def varsOf (equations : Equations) : List TypeVar :=
  equations.flatMap fun (left, right) => left.vars ++ right.vars

/-- How many variables equations have. -/
def varCount (equations : Equations) : Nat := (varsOf equations).eraseDups.length

/-- The number of nodes of equations. -/
def nodeCount (equations : Equations) : Nat :=
  total (fun (left, right) => left.size + right.size) equations

/-- The equations under a substitution. -/
def applyTo (s : Subst) (equations : Equations) : Equations :=
  equations.map fun (left, right) => (s.apply left, s.apply right)

/-- The variable that an equation determines, and its other side. If both sides are variables, it
is the left one. -/
def orient? : Ty → Ty → Option (TypeVar × Ty)
  | .var v, t => some (v, t)
  | t, .var v => some (v, t)
  | _, _ => none

/-! ## The measure -/

private theorem nodup_eraseDups (vs : List TypeVar) : vs.eraseDups.Nodup := by
  induction hlength : vs.length using Nat.strongRecOn generalizing vs with
  | ind n ih =>
    match vs with
    | [] => simp
    | v :: vs =>
      rw [List.eraseDups_cons, List.nodup_cons]
      refine ⟨by simp [List.mem_eraseDups], ih _ ?_ _ rfl⟩
      have := List.length_filter_le (fun w => !w == v) vs
      simp only [List.length_cons] at hlength
      omega

private theorem length_eraseDups_le {vs ws : List TypeVar} (h : vs ⊆ ws) :
    vs.eraseDups.length ≤ ws.eraseDups.length := by
  refine (nodup_eraseDups vs).length_le_of_subset fun v hv => ?_
  rw [List.mem_eraseDups] at hv ⊢
  exact h hv

private theorem length_eraseDups_lt {vs ws : List TypeVar} {v : TypeVar} (h : vs ⊆ ws)
    (hws : v ∈ ws) (hvs : v ∉ vs) : vs.eraseDups.length < ws.eraseDups.length := by
  have hnodup : (v :: vs.eraseDups).Nodup :=
    List.nodup_cons.2 ⟨by rwa [List.mem_eraseDups], nodup_eraseDups vs⟩
  refine hnodup.length_le_of_subset fun w hw => ?_
  rw [List.mem_eraseDups]
  rcases List.mem_cons.1 hw with rfl | hw
  · exact hws
  · exact h (List.mem_eraseDups.1 hw)

/-- An equation that determines a variable has no other variables than that one and those of the
other side. -/
theorem orient_vars {left right t : Ty} {v : TypeVar} (h : orient? left right = some (v, t)) :
    ∀ w, w ∈ left.vars ++ right.vars ↔ w = v ∨ w ∈ t.vars := by
  intro w
  match left, right with
  | .var _, _ =>
    simp only [orient?, Option.some.injEq, Prod.mk.injEq] at h
    obtain ⟨rfl, rfl⟩ := h
    simp [Ty.vars]
  | .con _ _, .var _ =>
    simp only [orient?, Option.some.injEq, Prod.mk.injEq] at h
    obtain ⟨rfl, rfl⟩ := h
    simp [Ty.vars, or_comm]
  | .con _ _, .con _ _ => simp [orient?] at h

/-- Replacing a variable by a type without it takes it out of the equations. -/
theorem varCount_applyTo_lt {left right t : Ty} {v : TypeVar} (equations : Equations)
    (horient : orient? left right = some (v, t)) (hoccurs : v ∉ t.vars) :
    varCount (applyTo (.single v t) equations) < varCount ((left, right) :: equations) := by
  have hvars := orient_vars horient
  refine length_eraseDups_lt (v := v) (fun w hw => ?_) ?_ ?_
  · simp only [varsOf, applyTo, List.mem_flatMap, List.mem_map, List.mem_append] at hw
    obtain ⟨_, ⟨⟨a, b⟩, hmem, rfl⟩, hw⟩ := hw
    simp only [Subst.mem_vars_apply_single] at hw
    simp only [varsOf, List.flatMap_cons, List.mem_append, List.mem_flatMap]
    have := hvars w
    simp only [List.mem_append] at this
    by_cases hwt : w ∈ t.vars
    · exact .inl (this.2 (.inr hwt))
    · exact .inr ⟨(a, b), hmem, by grind⟩
  · simp only [varsOf, List.flatMap_cons]
    exact List.mem_append_left _ ((hvars v).2 (.inl rfl))
  · simp only [varsOf, applyTo, List.mem_flatMap, List.mem_map, List.mem_append]
    rintro ⟨_, ⟨⟨a, b⟩, -, rfl⟩, hw⟩
    simp only [Subst.mem_vars_apply_single] at hw
    grind

/-- Dropping an equation adds no variables. -/
theorem varCount_tail_le (left right : Ty) (equations : Equations) :
    varCount equations ≤ varCount ((left, right) :: equations) := by
  refine length_eraseDups_le fun w hw => ?_
  simp only [varsOf, List.flatMap_cons]
  exact List.mem_append_right _ hw

/-- The equations of two lists have no other variables than the lists. -/
theorem varsOf_zip (as bs : List Ty) :
    varsOf (as.zip bs) ⊆ Ty.varsList as ++ Ty.varsList bs := by
  induction as generalizing bs with
  | nil => simp [varsOf]
  | cons a as ih =>
    cases bs with
    | nil => simp [varsOf]
    | cons b bs =>
      intro w hw
      have := @ih bs w
      simp only [varsOf, List.zip_cons_cons, List.flatMap_cons, List.mem_append, Ty.varsList]
        at hw this ⊢
      grind

/-- The equations of the arguments have no other variables. -/
theorem varCount_zip_le (c : TyCon) (as bs : List Ty) (equations : Equations) :
    varCount (as.zip bs ++ equations) ≤ varCount ((.con c as, .con c bs) :: equations) := by
  refine length_eraseDups_le fun w hw => ?_
  simp only [varsOf, List.flatMap_append, List.flatMap_cons, Ty.vars, List.mem_append] at hw ⊢
  rcases hw with hw | hw
  · exact .inl (List.mem_append.1 (varsOf_zip as bs hw))
  · exact .inr hw

private theorem nodeCount_zip_le (as bs : List Ty) :
    nodeCount (as.zip bs) ≤ Ty.sizeList as + Ty.sizeList bs := by
  induction as generalizing bs with
  | nil => simp [nodeCount]
  | cons a as ih =>
    cases bs with
    | nil => simp [nodeCount]
    | cons b bs =>
      have := ih bs
      simp only [nodeCount, List.zip_cons_cons, total_cons, Ty.sizeList] at this ⊢
      omega

/-- The equations of the arguments are smaller. -/
theorem nodeCount_zip_lt (c : TyCon) (as bs : List Ty) (equations : Equations) :
    nodeCount (as.zip bs ++ equations) < nodeCount ((.con c as, .con c bs) :: equations) := by
  have := nodeCount_zip_le as bs
  simp only [nodeCount, total_append, total_cons, Ty.size] at this ⊢
  omega

/-! ## The solution -/

/-- Solves equations, the first one first. -/
def solve (equations : Equations) : Except UnifyError Subst :=
  match equations with
  | [] => .ok .empty
  | (left, right) :: equations =>
    match _horient : orient? left right with
    | some (v, t) =>
      if t.asVar? = some v then solve equations
      else if _hoccurs : v ∈ t.vars then .error (.occursCheck v t)
      else (solve (applyTo (.single v t) equations)).map (·.compose (.single v t))
    | none => match left, right with
      | .con c as, .con d bs =>
        if c = d ∧ as.length = bs.length then solve (as.zip bs ++ equations)
        else .error (.mismatch left right)
      | _, _ => .error (.mismatch left right)
termination_by (varCount equations, nodeCount equations)
decreasing_by
  · have := varCount_tail_le left right equations
    have := left.size_pos
    simp only [Prod.lex_def, nodeCount, total_cons]
    omega
  · simp only [Prod.lex_def]
    exact .inl (varCount_applyTo_lt equations _horient _hoccurs)
  · have := varCount_zip_le c as bs equations
    have := nodeCount_zip_lt c as bs equations
    obtain ⟨rfl, -⟩ := ‹c = d ∧ _›
    simp only [Prod.lex_def]
    omega

end Unification

/-- A most general substitution that makes two types equal. -/
def unify (left right : Ty) : Except UnifyError Subst := Unification.solve [(left, right)]

end Clausal
