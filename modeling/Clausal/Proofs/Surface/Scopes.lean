import Clausal.Proofs.Lists
import Clausal.Proofs.Surface.Children
import Clausal.Surface.Variables

/-!
# Scopes

Each direct subexpression of an expression is in the scope of some names that the first node
binds. The free variables of an expression are those of its subexpressions that are not among the
names in scope there.

## Main results

* `Expr.mem_free_iff`: the free variables, by the subexpressions and their scopes;
* `Expr.free_withChildren_subset`: subexpressions with fewer free variables make an expression with
  fewer.
-/

namespace Clausal

/-! ## Scopes -/

namespace Decl

variable {β : Type}

/-- The names that a declaration binds in its right-hand side alone. -/
def paramNames : Decl β → List String
  | .clause _ params _ => Pattern.boundNamesList params
  | _ => []

/-- The names that the declarations of a block bind in each right-hand side alone. -/
def paramScopes (decls : List (Decl β)) : List (List String) :=
  decls.filterMap fun decl => decl.body?.map fun _ => decl.paramNames

theorem length_paramScopes (decls : List (Decl β)) :
    (paramScopes decls).length = (bodies decls).length := by
  induction decls with
  | nil => rfl
  | cons decl decls ih =>
    cases decl with
    | data _ => exact ih
    | clause _ _ _ | value _ _ => exact congrArg Nat.succ ih

/-- Other right-hand sides are in the same scopes. -/
theorem paramScopes_withBodies {decls : List (Decl β)} {new : List β}
    (h : new.length = (bodies decls).length) :
    paramScopes (withBodies decls new) = paramScopes decls := by
  induction decls generalizing new with
  | nil => rfl
  | cons decl decls ih =>
    cases decl with
    | data _ => exact ih h
    | clause _ _ _ | value _ _ =>
      cases new with
      | nil => contradiction
      | cons body new => exact congrArg (_ :: ·) (ih (Nat.succ.inj h))

@[simp] theorem boundNames_outline (decl : Decl β) : decl.outline.boundNames = decl.boundNames := by
  cases decl <;> rfl

theorem boundNames_withBodies (decls : List (Decl β)) (new : List β) :
    (withBodies decls new).flatMap boundNames = decls.flatMap boundNames := by
  have h := congrArg (List.flatMap boundNames) (outline_withBodies decls new)
  simpa only [List.flatMap_map, boundNames_outline] using h

end Decl

namespace Arm

theorem patterns_withBodies {β : Type} {arms : List (Arm β)} {new : List β}
    (h : new.length = arms.length) : (withBodies arms new).map pattern = arms.map pattern := by
  induction arms generalizing new with
  | nil => rfl
  | cons arm arms ih =>
    cases new with
    | nil => contradiction
    | cons body new => exact congrArg (arm.pattern :: ·) (ih (Nat.succ.inj h))

end Arm

namespace Expr

variable {e : Expr} {name : String}

/-- The names that the first node of an expression binds in each of its subexpressions. -/
def scopes : Expr → List (List String)
  | .var _ | .lit _ | .con _ | .prim _ => []
  | .app _ args => [] :: args.map fun _ => []
  | .tuple elements => elements.map fun _ => []
  | .lam params _ => [Pattern.boundNamesList params]
  | .cond _ _ _ => [[], [], []]
  | .letIn decls _ =>
    (Decl.paramScopes decls ++ [[]]).map fun params => params ++ decls.flatMap Decl.boundNames
  | .caseOf _ arms => [] :: (arms.map Arm.pattern).map Pattern.boundNames

theorem mem_freeDecls_iff {decls : List (Decl Expr)} :
    name ∈ freeDecls decls ↔ ∃ part ∈ (Decl.bodies decls).zip (Decl.paramScopes decls),
      name ∈ part.1.free ∧ name ∉ part.2 := by
  induction decls with
  | nil => simp [freeDecls]
  | cons decl decls ih =>
    cases decl with
    | data decl => exact ih
    | clause other params body =>
      rw [freeDecls, List.mem_append, ih, mem_removeAll_iff]
      simp [Decl.paramScopes, Decl.body?, Decl.paramNames]
    | value pattern body =>
      rw [freeDecls, List.mem_append, ih]
      simp [Decl.paramScopes, Decl.body?, Decl.paramNames]

theorem mem_freeArms_iff {arms : List (Arm Expr)} :
    name ∈ freeArms arms ↔ ∃ arm ∈ arms, name ∈ arm.body.free ∧ name ∉ arm.pattern.boundNames := by
  induction arms with
  | nil => simp [freeArms]
  | cons arm arms ih =>
    obtain ⟨pattern, body⟩ := arm
    rw [freeArms, List.mem_append, ih, mem_removeAll_iff, List.exists_mem_cons_iff]

/-- A variable is free in an expression if it is free in a subexpression where the first node does
not bind it. -/
theorem mem_free_iff : name ∈ e.free
    ↔ e = .var name ∨ ∃ part ∈ e.children.zip e.scopes, name ∈ part.1.free ∧ name ∉ part.2 := by
  cases e with
  | var other => simp [free, children, eq_comm]
  | lit _ | con _ | prim _ => simp [free, children]
  | app func args =>
    simp only [free, children, scopes, freeList_eq_flatMap, List.zip_cons_cons, zip_map_self]
    simp
  | tuple elements =>
    simp only [free, children, scopes, freeList_eq_flatMap, zip_map_self]
    simp
  | lam params body => simp [free, children, scopes, mem_removeAll_iff]
  | cond condition positive negative => simp [free, children, scopes]
  | letIn decls body =>
    rw [free, children_letIn, scopes, mem_removeAll_iff, List.mem_append, mem_freeDecls_iff,
      List.map_append, List.zip_append (by rw [List.length_map, Decl.length_paramScopes]),
      List.zip_map_right]
    -- the names of the block are taken away from each right-hand side and from the body
    simp only [reduceCtorEq, false_or, List.mem_append, List.mem_map, List.map_cons, List.map_nil,
      List.nil_append, List.zip_cons_cons, List.zip_nil_right, List.mem_singleton]
    constructor
    · rintro ⟨⟨part, hpart, hfree, hparams⟩ | hbody, hbound⟩
      · refine ⟨_, .inl ⟨part, hpart, rfl⟩, hfree, ?_⟩
        rw [Prod.map_snd, List.mem_append, not_or]
        exact ⟨hparams, hbound⟩
      · exact ⟨_, .inr rfl, hbody, hbound⟩
    · rintro ⟨_, ⟨part, hpart, rfl⟩ | rfl, hfree, hbound⟩
      · rw [Prod.map_snd, List.mem_append, not_or] at hbound
        exact ⟨.inl ⟨part, hpart, hfree, hbound.1⟩, hbound.2⟩
      · exact ⟨.inr hfree, hbound⟩
  | caseOf scrutinee arms =>
    simp only [free, children, scopes, List.mem_append, mem_freeArms_iff, List.zip_cons_cons,
      List.map_map, List.zip_map']
    simp

/-- Other subexpressions are in the same scopes. -/
theorem scopes_withChildren {new : List Expr} (h : new.length = e.children.length) :
    (e.withChildren new).scopes = e.scopes := by
  cases e with
  | var _ | lit _ | con _ | prim _ => rfl
  | app func args =>
    cases new with
    | nil => rfl
    | cons func' args' =>
      simp only [withChildren, scopes, List.map_const']
      rw [Nat.succ.inj h]
  | tuple elements =>
    simp only [withChildren, scopes, List.map_const']
    rw [show new.length = elements.length from h]
  | lam params body =>
    obtain ⟨body', rfl⟩ := List.length_eq_one_iff.1 h
    rfl
  | cond condition positive negative =>
    obtain ⟨_, _, _, rfl⟩ := List.length_eq_three.1 h
    rfl
  | letIn decls body =>
    rw [children_letIn, List.length_append, List.length_singleton] at h
    rcases List.eq_nil_or_concat' new with rfl | ⟨bodies, body', rfl⟩
    · contradiction
    -- the declarations bind the same names as before, with other values
    · have hbodies : bodies.length = (Decl.bodies decls).length := by simpa using h
      rw [withChildren_letIn hbodies, scopes, scopes, Decl.paramScopes_withBodies hbodies,
        Decl.boundNames_withBodies]
  | caseOf scrutinee arms =>
    cases new with
    | nil => contradiction
    | cons scrutinee' bodies =>
      have hbodies : bodies.length = arms.length := by simpa [children] using h
      rw [withChildren, scopes, scopes, Arm.patterns_withBodies hbodies]

/-- A variable has no subexpressions that could be replaced. -/
theorem eq_var_of_withChildren {new : List Expr} (h : new.length = e.children.length)
    (hvar : e.withChildren new = .var name) : e = .var name := by
  have hnew : new = [] := by
    rw [← children_withChildren h, hvar, children]
  rw [hnew, List.length_nil] at h
  rw [hnew, ← List.length_eq_zero_iff.1 h.symm, withChildren_children] at hvar
  exact hvar

/-- Subexpressions with fewer free variables make an expression with fewer. -/
theorem free_withChildren_subset {new : List Expr}
    (h : List.Forall₂ (fun c c' => c'.free ⊆ c.free) e.children new) :
    (e.withChildren new).free ⊆ e.free := by
  have hlength : new.length = e.children.length := h.length_eq.symm
  intro name hname
  rw [mem_free_iff, children_withChildren hlength, scopes_withChildren hlength] at hname
  rcases hname with hvar | ⟨⟨c', scope⟩, hmem, hfree, hscope⟩
  · exact mem_free_iff.2 (.inl (eq_var_of_withChildren hlength hvar))
  · obtain ⟨c, hsubset, hmem⟩ := exists_mem_zip h hmem
    exact mem_free_iff.2 (.inr ⟨(c, scope), hmem, hsubset hfree, hscope⟩)

/-! ## Forms of expressions -/

theorem mem_free_app {func : Expr} {args : List Expr} :
    name ∈ (app func args).free ↔ name ∈ func.free ∨ ∃ arg ∈ args, name ∈ arg.free := by
  show name ∈ func.free ++ freeList args ↔ _
  rw [List.mem_append, freeList_eq_flatMap, List.mem_flatMap]

theorem mem_free_app1 {func arg : Expr} :
    name ∈ (app1 func arg).free ↔ name ∈ func.free ∨ name ∈ arg.free := by
  simp [app1, mem_free_app]

theorem mem_free_tuple {elements : List Expr} :
    name ∈ (tuple elements).free ↔ ∃ element ∈ elements, name ∈ element.free := by
  show name ∈ freeList elements ↔ _
  rw [freeList_eq_flatMap, List.mem_flatMap]

theorem mem_free_lam {params : List Pattern} {body : Expr} :
    name ∈ (lam params body).free
      ↔ name ∈ body.free ∧ name ∉ Pattern.boundNamesList params :=
  mem_removeAll_iff

theorem mem_free_lam1 {param : String} {body : Expr} :
    name ∈ (lam1 param body).free ↔ name ∈ body.free ∧ name ≠ param := by
  simp [lam1, mem_free_lam, Pattern.boundNamesList, Pattern.boundNames]

theorem mem_free_cond {condition positive negative : Expr} :
    name ∈ (cond condition positive negative).free
      ↔ name ∈ condition.free ∨ name ∈ positive.free ∨ name ∈ negative.free := by
  show name ∈ condition.free ++ positive.free ++ negative.free ↔ _
  rw [List.mem_append, List.mem_append, or_assoc]

theorem mem_free_letIn {decls : List (Decl Expr)} {body : Expr} :
    name ∈ (letIn decls body).free
      ↔ (name ∈ freeDecls decls ∨ name ∈ body.free) ∧ name ∉ decls.flatMap Decl.boundNames := by
  show name ∈ (freeDecls decls ++ body.free).removeAll _ ↔ _
  rw [mem_removeAll_iff, List.mem_append]

theorem mem_free_caseOf {scrutinee : Expr} {arms : List (Arm Expr)} :
    name ∈ (caseOf scrutinee arms).free
      ↔ name ∈ scrutinee.free
        ∨ ∃ arm ∈ arms, name ∈ arm.body.free ∧ name ∉ arm.pattern.boundNames := by
  show name ∈ scrutinee.free ++ freeArms arms ↔ _
  rw [List.mem_append, mem_freeArms_iff]

theorem mem_free_var {other : String} : name ∈ (var other).free ↔ name = other :=
  List.mem_singleton

theorem mem_free_tuple_var {vars : List String} :
    name ∈ (tuple (vars.map .var)).free ↔ name ∈ vars := by
  simp [mem_free_tuple, mem_free_var]

/-- A block of one value binds the names of its pattern. -/
theorem mem_free_letIn_value {pattern : Pattern} {value body : Expr} :
    name ∈ (letIn [.value pattern value] body).free
      ↔ (name ∈ value.free ∨ name ∈ body.free) ∧ name ∉ pattern.boundNames := by
  simp [mem_free_letIn, freeDecls, Decl.boundNames]

end Expr

end Clausal
