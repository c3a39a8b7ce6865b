import Clausal.Surface.Expr
import Mathlib

/-!
# Subexpressions

An expression is its first node with its direct subexpressions. `Expr.withChildren` puts other
subexpressions below the same node, so that what happens inside of an expression can be stated
once for all nodes.

## Main results

* `Expr.children_withChildren`: the new subexpressions are those that were put in;
* `Expr.withChildren_children`: an expression is its first node with its subexpressions;
* `Expr.induction_children`: induction over subexpressions;
* `Expr.Everywhere`: a property of an expression and of all of its subexpressions.
-/

namespace Clausal

namespace Decl

variable {β : Type}

/-- A declaration without its right-hand side. -/
def outline : Decl β → Decl Unit
  | .clause name params _ => .clause name params ()
  | .value pattern _ => .value pattern ()
  | .data decl => .data decl

/-- The right-hand sides of a block. -/
def bodies (decls : List (Decl β)) : List β := decls.filterMap body?

/-- A block with other right-hand sides, as far as there are any. -/
def withBodies : List (Decl β) → List β → List (Decl β)
  | .clause name params _ :: decls, body :: bodies =>
    .clause name params body :: withBodies decls bodies
  | .value pattern _ :: decls, body :: bodies => .value pattern body :: withBodies decls bodies
  | .data decl :: decls, bodies => .data decl :: withBodies decls bodies
  | decls, _ => decls

@[simp] theorem bodies_nil : bodies ([] : List (Decl β)) = [] := rfl

@[simp] theorem bodies_clause (name : String) (params : List Pattern) (body : β)
    (decls : List (Decl β)) : bodies (.clause name params body :: decls) = body :: bodies decls :=
  rfl

@[simp] theorem bodies_value (pattern : Pattern) (body : β) (decls : List (Decl β)) :
    bodies (.value pattern body :: decls) = body :: bodies decls := rfl

@[simp] theorem bodies_data (decl : DataDecl) (decls : List (Decl β)) :
    bodies (.data decl :: decls) = bodies decls := rfl

@[simp] theorem withBodies_nil (new : List β) : withBodies [] new = [] := by
  cases new <;> rfl

@[simp] theorem withBodies_clause (name : String) (params : List Pattern) (old body : β)
    (decls : List (Decl β)) (new : List β) :
    withBodies (.clause name params old :: decls) (body :: new)
      = .clause name params body :: withBodies decls new := rfl

@[simp] theorem withBodies_value (pattern : Pattern) (old body : β) (decls : List (Decl β))
    (new : List β) :
    withBodies (.value pattern old :: decls) (body :: new)
      = .value pattern body :: withBodies decls new := rfl

@[simp] theorem withBodies_data (decl : DataDecl) (decls : List (Decl β)) (new : List β) :
    withBodies (.data decl :: decls) new = .data decl :: withBodies decls new := by
  cases new <;> rfl

/-- Right-hand sides that come on top of those of the block are left out. -/
theorem withBodies_append {decls : List (Decl β)} {new : List β}
    (h : new.length = (bodies decls).length) (rest : List β) :
    withBodies decls (new ++ rest) = withBodies decls new := by
  induction decls generalizing new with
  | nil => simp
  | cons decl decls ih =>
    cases decl with
    | data decl => simp [ih h]
    | clause _ _ _ | value _ _ =>
      cases new with
      | nil => simp at h
      | cons body new => simp [ih (Nat.succ.inj h)]

theorem bodies_withBodies {decls : List (Decl β)} {new : List β}
    (h : new.length = (bodies decls).length) : bodies (withBodies decls new) = new := by
  induction decls generalizing new with
  | nil => exact (List.length_eq_zero_iff.1 h).symm
  | cons decl decls ih =>
    cases decl with
    | data decl => exact ih h
    | clause _ _ _ | value _ _ =>
      cases new with
      | nil => simp at h
      | cons body new => simp [ih (Nat.succ.inj h)]

theorem withBodies_bodies (decls : List (Decl β)) : withBodies decls (bodies decls) = decls := by
  induction decls with
  | nil => rfl
  | cons decl decls ih => cases decl <;> simp [ih]

/-- The declarations stay the same but for their right-hand sides. -/
theorem outline_withBodies (decls : List (Decl β)) (new : List β) :
    (withBodies decls new).map outline = decls.map outline := by
  induction decls generalizing new with
  | nil => simp
  | cons decl decls ih =>
    cases decl with
    | data decl => simp [ih]
    | clause _ _ _ | value _ _ =>
      cases new with
      | nil => rfl
      | cons body new => simp [outline, ih]

/-- Of right-hand sides that are put in twice, the later ones stay. -/
theorem withBodies_withBodies {decls : List (Decl β)} {new new' : List β}
    (h : new.length = (bodies decls).length) (h' : new'.length = (bodies decls).length) :
    withBodies (withBodies decls new) new' = withBodies decls new' := by
  induction decls generalizing new new' with
  | nil => rfl
  | cons decl decls ih =>
    cases decl with
    | data decl => exact congrArg (_ :: ·) (ih h h')
    | clause _ _ _ | value _ _ =>
      cases new with
      | nil => simp at h
      | cons body new =>
        cases new' with
        | nil => simp at h'
        | cons body' new' => exact congrArg (_ :: ·) (ih (Nat.succ.inj h) (Nat.succ.inj h'))

end Decl

namespace Arm

variable {β : Type}

/-- The arms of a case with other right-hand sides. -/
def withBodies (arms : List (Arm β)) (bodies : List β) : List (Arm β) :=
  arms.zipWith (fun arm body => ⟨arm.pattern, body⟩) bodies

theorem bodies_withBodies {arms : List (Arm β)} {new : List β} (h : new.length = arms.length) :
    (withBodies arms new).map body = new := by
  induction arms generalizing new with
  | nil => exact (List.length_eq_zero_iff.1 h).symm
  | cons arm arms ih =>
    cases new with
    | nil => simp at h
    | cons body new => exact congrArg (body :: ·) (ih (Nat.succ.inj h))

theorem withBodies_bodies (arms : List (Arm β)) : withBodies arms (arms.map body) = arms := by
  induction arms with
  | nil => rfl
  | cons arm arms ih => exact congrArg (arm :: ·) ih

theorem withBodies_withBodies {arms : List (Arm β)} {new new' : List β}
    (h : new.length = arms.length) :
    withBodies (withBodies arms new) new' = withBodies arms new' := by
  induction arms generalizing new new' with
  | nil => rfl
  | cons arm arms ih =>
    cases new with
    | nil => simp at h
    | cons body new =>
      cases new' with
      | nil => rfl
      | cons body' new' => exact congrArg (_ :: ·) (ih (Nat.succ.inj h))

end Arm

namespace Expr

/-- An expression with other direct subexpressions, as many as it has. -/
def withChildren : Expr → List Expr → Expr
  | .app _ _, func :: args => .app func args
  | .tuple _, elements => .tuple elements
  | .lam params _, [body] => .lam params body
  | .cond _ _ _, [condition, positive, negative] => .cond condition positive negative
  | .letIn decls body, children =>
    .letIn (Decl.withBodies decls children) (children.getLast?.getD body)
  | .caseOf _ arms, scrutinee :: bodies =>
    .caseOf scrutinee (Arm.withBodies arms bodies)
  | e, _ => e

theorem children_letIn (decls : List (Decl Expr)) (body : Expr) :
    (letIn decls body).children = Decl.bodies decls ++ [body] := by
  rw [children, Decl.bodies]

theorem withChildren_letIn {decls : List (Decl Expr)} {bodies : List Expr}
    (h : bodies.length = (Decl.bodies decls).length) (body body' : Expr) :
    (letIn decls body).withChildren (bodies ++ [body'])
      = letIn (Decl.withBodies decls bodies) body' := by
  rw [withChildren, Decl.withBodies_append h, List.getLast?_concat, Option.getD_some]

/-- As many subexpressions as a block has are right-hand sides and a body. -/
theorem exists_of_length_eq_letIn {decls : List (Decl Expr)} {body : Expr} {new : List Expr}
    (h : new.length = (letIn decls body).children.length) :
    ∃ bodies body', new = bodies ++ [body'] ∧ bodies.length = (Decl.bodies decls).length := by
  rw [children_letIn, List.length_append, List.length_singleton] at h
  have hne : new ≠ [] := List.ne_nil_of_length_pos (by omega)
  refine ⟨new.dropLast, new.getLast hne, (List.dropLast_concat_getLast hne).symm, ?_⟩
  rw [List.length_dropLast, h, Nat.add_sub_cancel]

/-- The direct subexpressions are those that were put in. -/
theorem children_withChildren {e : Expr} {new : List Expr}
    (h : new.length = e.children.length) : (e.withChildren new).children = new := by
  cases e with
  | var _ | lit _ | con _ | prim _ => exact (List.length_eq_zero_iff.1 h).symm
  | tuple elements => rfl
  | app func args =>
    obtain ⟨func', args', rfl⟩ := List.exists_cons_of_length_eq_add_one h
    rfl
  | lam params body =>
    obtain ⟨body', rfl⟩ := List.length_eq_one_iff.1 h
    rfl
  | cond condition positive negative =>
    obtain ⟨condition', positive', negative', rfl⟩ := List.length_eq_three.1 h
    rfl
  | letIn decls body =>
    obtain ⟨bodies, body', rfl, hbodies⟩ := exists_of_length_eq_letIn h
    rw [withChildren_letIn hbodies, children_letIn, Decl.bodies_withBodies hbodies]
  | caseOf scrutinee arms =>
    obtain ⟨scrutinee', bodies, rfl⟩ := List.exists_cons_of_length_eq_add_one h
    have hbodies : bodies.length = arms.length := by simpa [children] using h
    rw [withChildren, children, Arm.bodies_withBodies hbodies]

/-- Of subexpressions that are put in twice, the later ones stay. -/
theorem withChildren_withChildren {e : Expr} {new new' : List Expr}
    (h : new.length = e.children.length) (h' : new'.length = e.children.length) :
    (e.withChildren new).withChildren new' = e.withChildren new' := by
  cases e with
  | var _ | lit _ | con _ | prim _ => rfl
  | tuple elements => rfl
  | app func args =>
    obtain ⟨func', args', rfl⟩ := List.exists_cons_of_length_eq_add_one h
    obtain ⟨func'', args'', rfl⟩ := List.exists_cons_of_length_eq_add_one h'
    rfl
  | lam params body =>
    obtain ⟨body', rfl⟩ := List.length_eq_one_iff.1 h
    obtain ⟨body'', rfl⟩ := List.length_eq_one_iff.1 h'
    rfl
  | cond condition positive negative =>
    obtain ⟨condition', positive', negative', rfl⟩ := List.length_eq_three.1 h
    obtain ⟨_, _, _, rfl⟩ := List.length_eq_three.1 h'
    rfl
  | letIn decls body =>
    obtain ⟨bodies, body', rfl, hbodies⟩ := exists_of_length_eq_letIn h
    obtain ⟨bodies', body'', rfl, hbodies'⟩ := exists_of_length_eq_letIn h'
    have hbodies'' : bodies'.length = (Decl.bodies (Decl.withBodies decls bodies)).length := by
      rw [Decl.bodies_withBodies hbodies, hbodies, hbodies']
    rw [withChildren_letIn hbodies, withChildren_letIn hbodies'', withChildren_letIn hbodies',
      Decl.withBodies_withBodies hbodies hbodies']
  | caseOf scrutinee arms =>
    obtain ⟨scrutinee', bodies, rfl⟩ := List.exists_cons_of_length_eq_add_one h
    obtain ⟨scrutinee'', bodies', rfl⟩ := List.exists_cons_of_length_eq_add_one h'
    have hbodies : bodies.length = arms.length := by simpa [children] using h
    simp only [withChildren, Arm.withBodies_withBodies hbodies]

/-- An expression is made of its first node and its direct subexpressions. -/
theorem withChildren_children (e : Expr) : e.withChildren e.children = e := by
  cases e with
  | var _ | lit _ | con _ | prim _ | tuple _ | app _ _ | lam _ _ | cond _ _ _ => rfl
  | letIn decls body => rw [children_letIn, withChildren_letIn rfl, Decl.withBodies_bodies]
  | caseOf scrutinee arms => rw [children, withChildren, Arm.withBodies_bodies]

/-! ## Induction -/

theorem sizeOf_lt_of_mem_children {e c : Expr} (h : c ∈ e.children) : sizeOf c < sizeOf e := by
  cases e with
  | var _ | lit _ | con _ | prim _ => cases h
  | app func args =>
    rcases List.mem_cons.1 h with rfl | h
    · simp
      omega
    · have := List.sizeOf_lt_of_mem h
      simp
      omega
  | tuple elements =>
    have := List.sizeOf_lt_of_mem (show c ∈ elements from h)
    simp
    omega
  | lam params body =>
    obtain rfl := List.mem_singleton.1 h
    simp
  | cond condition positive negative =>
    simp only [children, List.mem_cons, List.not_mem_nil, or_false] at h
    rcases h with rfl | rfl | rfl <;> simp <;> omega
  | letIn decls body =>
    rw [children_letIn, List.mem_append, List.mem_singleton] at h
    rcases h with h | rfl
    -- a right-hand side is smaller than its declaration, which is smaller than the block
    · obtain ⟨decl, hdecl, hc⟩ := List.mem_filterMap.1 h
      have := List.sizeOf_lt_of_mem hdecl
      cases decl with
      | data decl => cases hc
      | clause _ _ _ | value _ _ =>
        obtain rfl := Option.some.inj hc
        simp at this ⊢
        omega
    · simp
  | caseOf scrutinee arms =>
    rcases List.mem_cons.1 h with rfl | h
    · simp
      omega
    · obtain ⟨⟨pattern, body⟩, harm, rfl⟩ := List.mem_map.1 h
      have := List.sizeOf_lt_of_mem harm
      simp at this ⊢
      omega

/-- What holds of an expression whenever it holds of its direct subexpressions holds of every
expression. -/
theorem induction_children {motive : Expr → Prop}
    (step : ∀ e, (∀ c ∈ e.children, motive c) → motive e) (e : Expr) : motive e :=
  step e fun c hc =>
    have := sizeOf_lt_of_mem_children hc
    induction_children step c
termination_by sizeOf e

/-! ## Properties of subexpressions -/

/-- A property of an expression and of all of its subexpressions. -/
inductive Everywhere (P : Expr → Prop) : Expr → Prop
  | intro {e : Expr} : P e → (∀ c ∈ e.children, Everywhere P c) → Everywhere P e

variable {P Q : Expr → Prop} {e : Expr}

theorem everywhere_iff : e.Everywhere P ↔ P e ∧ ∀ c ∈ e.children, c.Everywhere P := by
  constructor
  · rintro ⟨h, hchildren⟩
    exact ⟨h, hchildren⟩
  · rintro ⟨h, hchildren⟩
    exact ⟨h, hchildren⟩

theorem everywhere_of_forall (h : ∀ c, P c) (e : Expr) : e.Everywhere P := by
  induction e using induction_children with
  | step e ih => exact .intro (h e) ih

/-- Two properties together hold everywhere if each does. -/
theorem Everywhere.and (hP : e.Everywhere P) (hQ : e.Everywhere Q) :
    e.Everywhere fun c => P c ∧ Q c := by
  induction hP with
  | intro h _ ih =>
    obtain ⟨hnode, hchildren⟩ := everywhere_iff.1 hQ
    exact .intro ⟨h, hnode⟩ fun c hc => ih c hc (hchildren c hc)

/-- The properties of a family hold everywhere together if each does. -/
theorem everywhere_forall_mem {ι : Type} {s : List ι} {P : ι → Expr → Prop}
    (h : ∀ i ∈ s, e.Everywhere (P i)) : e.Everywhere fun c => ∀ i ∈ s, P i c := by
  induction e using induction_children with
  | step e ih =>
    refine .intro (fun i hi => (everywhere_iff.1 (h i hi)).1) fun c hc => ih c hc fun i hi => ?_
    exact (everywhere_iff.1 (h i hi)).2 c hc

theorem Everywhere.imp (h : e.Everywhere P) (himp : ∀ c, P c → Q c) : e.Everywhere Q := by
  induction h with
  | intro h _ ih => exact .intro (himp _ h) ih

end Expr

end Clausal
