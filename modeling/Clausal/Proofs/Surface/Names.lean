import Clausal.Proofs.Simplification.FirstPlace
import Clausal.Proofs.Surface.Scopes

/-!
# Names of expressions

A name stands in an expression, bound or free, if it stands at the first node or in a subexpression.
So a property of all names is one of the first node and of the subexpressions, and at any place of
an expression the subexpression can be replaced by another whose names have the property too.

## Main results

* `Expr.named_iff`: the names of an expression, by its first node and its subexpressions;
* `Expr.Context.named`: another subexpression at a place;
* `Expr.Rewrites.exists_context`: a subexpression is replaced at a place.
-/

namespace Clausal

variable {P : String → Prop}

/-! ## Declarations -/

namespace Decl

/-- The names that a declaration itself brings, around it and in its right-hand side. -/
def ownNames {β : Type} (decl : Decl β) : List String := decl.boundNames ++ decl.paramNames

theorem ownNames_outline {β : Type} (decl : Decl β) : decl.outline.ownNames = decl.ownNames := by
  cases decl <;> rfl

theorem ownNames_withBodies {β : Type} (decls : List (Decl β)) (new : List β) :
    (withBodies decls new).flatMap ownNames = decls.flatMap ownNames := by
  have h := congrArg (List.flatMap ownNames) (outline_withBodies decls new)
  simpa only [List.flatMap_map, ownNames_outline] using h

end Decl

namespace Expr

variable {e : Expr} {name : String}

theorem mem_namesDecls_iff {decls : List (Decl Expr)} :
    name ∈ namesDecls decls
      ↔ name ∈ decls.flatMap Decl.ownNames ∨ ∃ body ∈ Decl.bodies decls, name ∈ body.names := by
  induction decls with
  | nil => simp [namesDecls]
  | cons decl decls ih =>
    rw [List.flatMap_cons, List.mem_append]
    cases decl with
    | clause _ _ _ | value _ _ =>
      simp only [namesDecls, Decl.ownNames, Decl.boundNames, Decl.paramNames, Decl.bodies_clause,
        Decl.bodies_value, List.mem_append, List.mem_cons, ih]
      grind
    | data _ => simpa [namesDecls, Decl.ownNames, Decl.boundNames, Decl.paramNames] using ih

theorem mem_namesDecls_of_mem_bodies {decls : List (Decl Expr)} {body : Expr}
    (hbody : body ∈ Decl.bodies decls) (h : name ∈ body.names) : name ∈ namesDecls decls :=
  mem_namesDecls_iff.2 (.inr ⟨body, hbody, h⟩)

theorem mem_namesDecls_of_mem_boundNames {decls : List (Decl Expr)}
    (h : name ∈ decls.flatMap Decl.boundNames) : name ∈ namesDecls decls := by
  obtain ⟨decl, hdecl, h⟩ := List.mem_flatMap.1 h
  exact mem_namesDecls_iff.2 (.inl (List.mem_flatMap.2 ⟨decl, hdecl, List.mem_append_left _ h⟩))

theorem mem_namesArms_iff {arms : List (Arm Expr)} :
    name ∈ namesArms arms
      ↔ ∃ arm ∈ arms, name ∈ arm.pattern.boundNames ∨ name ∈ arm.body.names := by
  induction arms with
  | nil => simp [namesArms]
  | cons arm arms ih =>
    obtain ⟨pattern, body⟩ := arm
    rw [namesArms, List.mem_append, List.mem_append, ih, List.exists_mem_cons_iff]

/-! ## First nodes -/

/-- The names that stand at the first node of an expression. -/
def ownNames : Expr → List String
  | .var name => [name]
  | .lit _ | .con _ | .prim _ | .app _ _ | .tuple _ | .cond _ _ _ => []
  | .lam params _ => Pattern.boundNamesList params
  | .letIn decls _ => decls.flatMap Decl.ownNames
  | .caseOf _ arms => (arms.map Arm.pattern).flatMap Pattern.boundNames

/-- A name stands in an expression if it stands at the first node or in a subexpression. -/
theorem mem_names_iff : name ∈ e.names ↔ name ∈ e.ownNames ∨ ∃ c ∈ e.children, name ∈ c.names := by
  cases e with
  | var _ | lit _ | con _ | prim _ | cond _ _ _ => simp [names, ownNames, children]
  | app _ _ | tuple _ => simp [names, ownNames, children, namesList_eq_flatMap]
  | lam _ _ => simp [names, ownNames, children]
  | letIn decls body =>
    rw [names, ownNames, children_letIn, List.mem_append, mem_namesDecls_iff]
    simp [or_and_right, exists_or, or_assoc]
  | caseOf scrutinee arms =>
    rw [names, ownNames, children, List.mem_append, mem_namesArms_iff, List.exists_mem_cons_iff]
    simp only [List.mem_flatMap, List.mem_map]
    grind

/-- The names of a subexpression are among those of the expression. -/
theorem names_subset_of_mem_children {c : Expr} (hc : c ∈ e.children) : c.names ⊆ e.names :=
  fun _ h => mem_names_iff.2 (.inr ⟨c, hc, h⟩)

/-- The free variables of an expression are among its names. -/
theorem free_subset_names (e : Expr) : e.free ⊆ e.names := by
  induction e using induction_children with
  | step e ih =>
    intro name h
    rcases mem_free_iff.1 h with rfl | ⟨part, hpart, hfree, -⟩
    · exact List.mem_singleton_self name
    · have hchild := (List.of_mem_zip hpart).1
      exact names_subset_of_mem_children hchild (ih part.1 hchild hfree)

/-- Other subexpressions leave the first node as it is. -/
theorem ownNames_withChildren {new : List Expr} (h : new.length = e.children.length) :
    (e.withChildren new).ownNames = e.ownNames := by
  cases e with
  | var _ | lit _ | con _ | prim _ | tuple _ => rfl
  | app func args => cases new <;> rfl
  | lam params body =>
    obtain ⟨body', rfl⟩ := List.length_eq_one_iff.1 h
    rfl
  | cond condition positive negative =>
    obtain ⟨_, _, _, rfl⟩ := List.length_eq_three.1 h
    rfl
  | letIn decls body => exact Decl.ownNames_withBodies decls new
  | caseOf scrutinee arms =>
    cases new with
    | nil => contradiction
    | cons scrutinee' bodies =>
      have hbodies : bodies.length = arms.length := by simpa [children] using h
      rw [withChildren, ownNames, ownNames, Arm.patterns_withBodies hbodies]

end Expr

/-- Declarations of data types have no variables. -/
theorem Program.namesDecls_valueDecls (p : Program) :
    Expr.namesDecls p.valueDecls = Expr.namesDecls p.decls := by
  rw [valueDecls]
  induction p.decls with
  | nil => rfl
  | cons decl decls ih =>
    cases decl with
    | data _ => exact ih
    | clause _ _ _ => exact congrArg (_ ++ ·) ih
    | value _ _ => exact congrArg (_ ++ ·) ih

namespace Expr

variable {e : Expr} {name : String}

/-! ## Properties of all names -/

/-- Whether every name in an expression, bound or free, has a property. -/
def Named (P : String → Prop) (e : Expr) : Prop := ∀ name ∈ e.names, P name

theorem named_iff :
    e.Named P ↔ (∀ name ∈ e.ownNames, P name) ∧ ∀ c ∈ e.children, c.Named P := by
  simp only [Named, mem_names_iff (e := e), or_imp, forall_and]
  exact and_congr_right fun _ =>
    ⟨fun h c hc name hname => h name ⟨c, hc, hname⟩, fun h name ⟨c, hc, hname⟩ => h c hc name hname⟩

theorem Named.imp {Q : String → Prop} (h : e.Named P) (himp : ∀ name, P name → Q name) :
    e.Named Q := fun name hname => himp name (h name hname)

@[simp] theorem named_var : (var name).Named P ↔ P name := by
  simp [Named, names]

@[simp] theorem named_prim (primitive : Primitive) : (prim primitive).Named P := by
  simp [Named, names]

@[simp] theorem named_app1 {func arg : Expr} :
    (app1 func arg).Named P ↔ func.Named P ∧ arg.Named P := by
  rw [app1, named_iff]
  simp [ownNames, children]

@[simp] theorem named_tuple {elements : List Expr} :
    (tuple elements).Named P ↔ ∀ element ∈ elements, element.Named P := by
  rw [named_iff]
  simp [ownNames, children]

@[simp] theorem named_lam {params : List Pattern} {body : Expr} :
    (lam params body).Named P
      ↔ (∀ name ∈ Pattern.boundNamesList params, P name) ∧ body.Named P := by
  rw [named_iff]
  simp [ownNames, children]

@[simp] theorem named_lam1 {body : Expr} : (lam1 name body).Named P ↔ P name ∧ body.Named P := by
  simp [lam1, Pattern.boundNamesList, Pattern.boundNames]

@[simp] theorem named_cond {condition positive negative : Expr} :
    (cond condition positive negative).Named P
      ↔ condition.Named P ∧ positive.Named P ∧ negative.Named P := by
  rw [named_iff]
  simp [ownNames, children]

theorem named_letIn {decls : List (Decl Expr)} {body : Expr} :
    (letIn decls body).Named P
      ↔ (∀ decl ∈ decls, (∀ name ∈ decl.ownNames, P name) ∧ ∀ value ∈ decl.body?, value.Named P)
        ∧ body.Named P := by
  rw [named_iff, ownNames, children_letIn, Decl.bodies]
  simp only [List.mem_flatMap, List.mem_append, List.mem_filterMap, List.mem_singleton,
    Option.mem_def]
  grind

theorem named_letIn_value {pattern : Pattern} {value body : Expr} :
    (letIn [.value pattern value] body).Named P
      ↔ ((∀ name ∈ pattern.boundNames, P name) ∧ value.Named P) ∧ body.Named P := by
  simp [named_letIn, Decl.ownNames, Decl.boundNames, Decl.paramNames, Decl.body?]

theorem named_caseOf {scrutinee : Expr} {arms : List (Arm Expr)} :
    (caseOf scrutinee arms).Named P
      ↔ scrutinee.Named P
        ∧ ∀ arm ∈ arms, (∀ name ∈ arm.pattern.boundNames, P name) ∧ arm.body.Named P := by
  rw [named_iff, ownNames, children]
  simp only [List.mem_flatMap, List.mem_cons, List.mem_map]
  grind

/-- Other subexpressions below the first node. -/
theorem named_withChildren {new : List Expr} (h : new.length = e.children.length) :
    (e.withChildren new).Named P
      ↔ (∀ name ∈ e.ownNames, P name) ∧ ∀ c ∈ new, c.Named P := by
  rw [named_iff, ownNames_withChildren h, children_withChildren h]

/-! ## Places -/

/-- What is around a place in an expression, as a function of the subexpression there. -/
inductive Context : (Expr → Expr) → Prop
  | hole : Context fun e => e
  | child {e c : Expr} {before after : List Expr} {around : Expr → Expr} :
    e.children = before ++ c :: after → Context around →
    Context fun x => e.withChildren (before ++ around x :: after)

namespace Context

variable {around : Expr → Expr} {c c' : Expr}

/-- The names at a place are names of the expression. -/
theorem named_of_named (h : Context around) (hc : (around c).Named P) : c.Named P := by
  induction h with
  | hole => exact hc
  | child hchildren _ ih =>
    rw [named_withChildren (by simp [hchildren])] at hc
    exact ih (hc.2 _ (List.mem_append_right _ List.mem_cons_self))

/-- Another subexpression at a place. -/
theorem named (h : Context around) (hc : (around c).Named P) (hc' : c'.Named P) :
    (around c').Named P := by
  induction h with
  | hole => exact hc'
  | child hchildren _ ih =>
    rw [named_withChildren (by simp [hchildren])] at hc ⊢
    obtain ⟨hown, hparts⟩ := hc
    rw [List.forall_mem_append, List.forall_mem_cons] at hparts ⊢
    exact ⟨hown, hparts.1, ih hparts.2.1, hparts.2.2⟩

end Context

/-- A subexpression is replaced at some place. -/
theorem Rewrites.exists_context {R : Expr → Expr → Prop} {e' : Expr} (h : e.Rewrites R e') :
    ∃ around c c', Context around ∧ e = around c ∧ R c c' ∧ e' = around c' := by
  induction h with
  | @root e e' hR => exact ⟨fun e => e, e, e', .hole, rfl, hR, rfl⟩
  | @child e c c' before after hchildren _ ih =>
    obtain ⟨around, part, part', haround, rfl, hR, rfl⟩ := ih
    refine ⟨_, part, part', .child hchildren haround, ?_, hR, rfl⟩
    rw [← hchildren, withChildren_children]

end Expr

end Clausal
