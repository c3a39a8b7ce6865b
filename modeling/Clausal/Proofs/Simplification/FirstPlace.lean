import Clausal.Proofs.Surface.Children
import Clausal.Simplification.Fixpoint

/-!
# The first place where a change is made

`fireFirst` goes through every form of expression. `fireFirst_eq` says the same of it in one
equation over the direct subexpressions, and from this follows what it comes to: nothing if no
subexpression has anything to change, an error only if the change to some subexpression is one,
and otherwise the expression with one subexpression changed.

## Main results

* `fireFirst_eq`: an expression is tried before its subexpressions, and these from left to right;
* `fireFirst_eq_none_iff`: there is nothing to do just if there is nothing to do anywhere;
* `fireFirst_ne_error`: no error comes out of changes that are none;
* `fireFirst_rewrites`: what is changed is one subexpression.
-/

namespace Clausal

namespace Attempt

variable {α β γ : Type}

@[simp] theorem none_orElse (second : Unit → Attempt α) :
    orElse (.ok none) second = second () := rfl

@[simp] theorem error_orElse (error : ClauseError) (second : Unit → Attempt α) :
    orElse (.error error) second = .error error := rfl

@[simp] theorem some_orElse (result : α × FreshSupply) (second : Unit → Attempt α) :
    orElse (.ok (some result)) second = .ok (some result) := rfl

@[simp] theorem map_none (f : α → β) : map f (.ok none) = .ok none := rfl

@[simp] theorem map_error (f : α → β) (error : ClauseError) :
    map f (.error error) = .error error := rfl

@[simp] theorem map_some (f : α → β) (a : α) (supply : FreshSupply) :
    map f (.ok (some (a, supply))) = .ok (some (f a, supply)) := rfl

/-- The three ways in which an attempt comes out. -/
theorem eq_error_or_none_or_some (attempt : Attempt α) :
    (∃ error, attempt = .error error) ∨ attempt = .ok none
      ∨ ∃ a supply, attempt = .ok (some (a, supply)) := by
  rcases attempt with error | (_ | ⟨a, supply⟩)
  · exact .inl ⟨error, rfl⟩
  · exact .inr (.inl rfl)
  · exact .inr (.inr ⟨a, supply, rfl⟩)

theorem map_map (f : α → β) (g : β → γ) (attempt : Attempt α) :
    (attempt.map f).map g = attempt.map (g ∘ f) := by
  obtain ⟨error, rfl⟩ | rfl | ⟨a, supply, rfl⟩ := eq_error_or_none_or_some attempt <;> rfl

theorem orElse_none (attempt : Attempt α) : attempt.orElse (fun _ => .ok none) = attempt := by
  obtain ⟨error, rfl⟩ | rfl | ⟨a, supply, rfl⟩ := eq_error_or_none_or_some attempt <;> rfl

theorem map_orElse (f : α → β) (first : Attempt α) (second : Unit → Attempt α) :
    (first.orElse second).map f = (first.map f).orElse fun _ => (second ()).map f := by
  obtain ⟨error, rfl⟩ | rfl | ⟨a, supply, rfl⟩ := eq_error_or_none_or_some first <;> rfl

theorem orElse_assoc (first : Attempt α) (second third : Unit → Attempt α) :
    (first.orElse second).orElse third = first.orElse fun _ => (second ()).orElse third := by
  obtain ⟨error, rfl⟩ | rfl | ⟨a, supply, rfl⟩ := eq_error_or_none_or_some first <;> rfl

/-- Changes that agree on the results that an attempt may have agree on the attempt. -/
theorem map_congr {f g : α → β} {attempt : Attempt α}
    (h : attempt.Ensures fun a => f a = g a) : attempt.map f = attempt.map g := by
  obtain ⟨error, rfl⟩ | rfl | ⟨a, supply, rfl⟩ := eq_error_or_none_or_some attempt
  · rfl
  · rfl
  · rw [map_some, map_some, h a supply rfl]

@[simp] theorem map_eq_none {f : α → β} {attempt : Attempt α} :
    attempt.map f = .ok none ↔ attempt = .ok none := by
  obtain ⟨error, rfl⟩ | rfl | ⟨a, supply, rfl⟩ := eq_error_or_none_or_some attempt <;> simp

@[simp] theorem orElse_eq_none {first : Attempt α} {second : Unit → Attempt α} :
    first.orElse second = .ok none ↔ first = .ok none ∧ second () = .ok none := by
  obtain ⟨error, rfl⟩ | rfl | ⟨a, supply, rfl⟩ := eq_error_or_none_or_some first <;> simp

theorem map_eq_error {f : α → β} {attempt : Attempt α} {error : ClauseError} :
    attempt.map f = .error error ↔ attempt = .error error := by
  obtain ⟨error, rfl⟩ | rfl | ⟨a, supply, rfl⟩ := eq_error_or_none_or_some attempt <;> simp

theorem map_eq_some {f : α → β} {attempt : Attempt α} {b : β} {supply : FreshSupply} :
    attempt.map f = .ok (some (b, supply)) ↔ ∃ a, attempt = .ok (some (a, supply)) ∧ f a = b := by
  obtain ⟨error, rfl⟩ | rfl | ⟨a, supply, rfl⟩ := eq_error_or_none_or_some attempt
  · simp
  · simp
  · simp only [map_some, Except.ok.injEq, Option.some.injEq, Prod.mk.injEq]
    constructor
    · rintro ⟨rfl, rfl⟩
      exact ⟨a, ⟨rfl, rfl⟩, rfl⟩
    · rintro ⟨_, ⟨rfl, rfl⟩, rfl⟩
      exact ⟨rfl, rfl⟩

/-- Either attempt may have failed, the second only if there is nothing to do in the first. -/
theorem orElse_eq_error {first : Attempt α} {second : Unit → Attempt α} {error : ClauseError} :
    first.orElse second = .error error
      ↔ first = .error error ∨ first = .ok none ∧ second () = .error error := by
  obtain ⟨error, rfl⟩ | rfl | ⟨a, supply, rfl⟩ := eq_error_or_none_or_some first <;> simp

/-- The result is that of the first attempt, or that of the second if there is nothing to do in
the first. -/
theorem orElse_eq_some {first : Attempt α} {second : Unit → Attempt α}
    {result : α × FreshSupply} :
    first.orElse second = .ok (some result)
      ↔ first = .ok (some result) ∨ first = .ok none ∧ second () = .ok (some result) := by
  obtain ⟨error, rfl⟩ | rfl | ⟨a, supply, rfl⟩ := eq_error_or_none_or_some first <;> simp

end Attempt

variable {change : Expr → Attempt Expr}

/-! ## Lists of expressions -/

@[simp] theorem fireFirstOf_nil : fireFirstOf change [] = .ok none := by rw [fireFirstOf]

theorem fireFirstOf_cons (e : Expr) (es : List Expr) :
    fireFirstOf change (e :: es) = ((fireFirst change e).map (· :: es)).orElse fun _ =>
      (fireFirstOf change es).map (e :: ·) := by
  rw [fireFirstOf]

theorem fireFirstOf_singleton (e : Expr) :
    fireFirstOf change [e] = (fireFirst change e).map ([·]) := by
  rw [fireFirstOf_cons, fireFirstOf_nil]
  obtain ⟨error, h⟩ | h | ⟨e', supply, h⟩ :=
    (fireFirst change e).eq_error_or_none_or_some <;> rw [h] <;> rfl

theorem fireFirstOf_append (es es' : List Expr) :
    fireFirstOf change (es ++ es') = ((fireFirstOf change es).map (· ++ es')).orElse fun _ =>
      (fireFirstOf change es').map (es ++ ·) := by
  induction es with
  | nil =>
    obtain ⟨error, h⟩ | h | ⟨new, supply, h⟩ :=
      (fireFirstOf change es').eq_error_or_none_or_some <;> simp [h]
  | cons e es ih =>
    rw [List.cons_append, fireFirstOf_cons, fireFirstOf_cons, ih]
    -- both sides try the first member, then the rest of the first list, then the second list
    simp only [Attempt.map_orElse, Attempt.map_map, Attempt.orElse_assoc]
    rfl

/-- A list keeps its length. -/
theorem length_fireFirstOf (es : List Expr) :
    (fireFirstOf change es).Ensures fun es' => es'.length = es.length := by
  induction es with
  | nil =>
    rw [fireFirstOf_nil]
    exact .none
  | cons e es ih =>
    have hfirst : (fireFirst change e).Ensures fun _ => True := fun _ _ _ => trivial
    rw [fireFirstOf_cons]
    exact .orElse (hfirst.map fun _ _ => rfl) (.map ih fun _ h => congrArg Nat.succ h)

/-- There is nothing to do in a list if there is nothing to do in its members. -/
theorem fireFirstOf_eq_none_iff {es : List Expr} :
    fireFirstOf change es = .ok none ↔ ∀ e ∈ es, fireFirst change e = .ok none := by
  induction es with
  | nil => simp
  | cons e es ih =>
    rw [fireFirstOf_cons, Attempt.orElse_eq_none, Attempt.map_eq_none, Attempt.map_eq_none, ih,
      List.forall_mem_cons]

/-- An error in a list is one in a member. -/
theorem exists_of_fireFirstOf_eq_error {es : List Expr} {error : ClauseError}
    (h : fireFirstOf change es = .error error) :
    ∃ e ∈ es, fireFirst change e = .error error := by
  induction es with
  | nil =>
    rw [fireFirstOf_nil] at h
    contradiction
  | cons e es ih =>
    rw [fireFirstOf_cons, Attempt.orElse_eq_error, Attempt.map_eq_error,
      Attempt.map_eq_error] at h
    rcases h with h | ⟨-, h⟩
    · exact ⟨e, List.mem_cons_self, h⟩
    · obtain ⟨e', he', h⟩ := ih h
      exact ⟨e', List.mem_cons_of_mem e he', h⟩

/-- One member of a list is changed. -/
theorem exists_of_fireFirstOf_eq_some {es es' : List Expr} {supply : FreshSupply}
    (h : fireFirstOf change es = .ok (some (es', supply))) :
    ∃ before e e' after, es = before ++ e :: after ∧ es' = before ++ e' :: after
      ∧ fireFirst change e = .ok (some (e', supply)) := by
  induction es generalizing es' with
  | nil =>
    rw [fireFirstOf_nil] at h
    cases h
  | cons e es ih =>
    rw [fireFirstOf_cons, Attempt.orElse_eq_some, Attempt.map_eq_some, Attempt.map_eq_some] at h
    rcases h with ⟨e', h, rfl⟩ | ⟨-, new, h, rfl⟩
    · exact ⟨[], e, e', es, rfl, rfl, h⟩
    · obtain ⟨before, c, c', after, rfl, rfl, hc⟩ := ih h
      exact ⟨e :: before, c, c', after, rfl, rfl, hc⟩

/-! ## Expressions -/

/-- A block is tried as the list of its right-hand sides. -/
theorem fireFirstOfDecls_eq (decls : List (Decl Expr)) :
    fireFirstOfDecls change decls
      = (fireFirstOf change (Decl.bodies decls)).map (Decl.withBodies decls) := by
  induction decls with
  | nil => rw [fireFirstOfDecls, Decl.bodies_nil, fireFirstOf_nil, Attempt.map_none]
  | cons decl decls ih =>
    cases decl with
    | clause _ _ _ | value _ _ =>
      simp only [fireFirstOfDecls, Decl.bodies_clause, Decl.bodies_value, fireFirstOf_cons, ih,
        Attempt.map_orElse, Attempt.map_map, Function.comp_def, Decl.withBodies_clause,
        Decl.withBodies_value, Decl.withBodies_bodies]
    | data decl =>
      rw [fireFirstOfDecls, Decl.bodies_data, ih, Attempt.map_map,
        funext (Decl.withBodies_data decl decls)]
      rfl

/-- The arms of a case are tried as the list of their right-hand sides. -/
theorem fireFirstOfArms_eq (arms : List (Arm Expr)) :
    fireFirstOfArms change arms
      = (fireFirstOf change (arms.map Arm.body)).map (Arm.withBodies arms) := by
  induction arms with
  | nil => rw [fireFirstOfArms, List.map_nil, fireFirstOf_nil, Attempt.map_none]
  | cons arm arms ih =>
    obtain ⟨pattern, body⟩ := arm
    rw [fireFirstOfArms, List.map_cons, fireFirstOf_cons, ih]
    simp only [Attempt.map_orElse, Attempt.map_map, Function.comp_def, Arm.withBodies,
      List.zipWith_cons_cons]
    rw [← Arm.withBodies, Arm.withBodies_bodies]

/-- An expression is tried before its direct subexpressions, and these from left to right. -/
theorem fireFirst_eq (change : Expr → Attempt Expr) (e : Expr) :
    fireFirst change e
      = (change e).orElse fun _ => (fireFirstOf change e.children).map e.withChildren := by
  rw [fireFirst.eq_def]
  -- the node itself is tried first on both sides, so only its parts are left to compare
  congr 1
  funext _
  cases e with
  | var _ | lit _ | con _ | prim _ => simp [Expr.children]
  | app func args =>
    simp only [Expr.children, fireFirstOf_cons, Attempt.map_orElse, Attempt.map_map]
    rfl
  | tuple elements =>
    simp only [Expr.children]
    rfl
  | lam params body =>
    simp only [Expr.children, fireFirstOf_singleton, Attempt.map_map]
    rfl
  | cond condition positive negative =>
    simp only [Expr.children, fireFirstOf_cons _ [_, _], fireFirstOf_cons _ [_],
      fireFirstOf_singleton, Attempt.map_orElse, Attempt.map_map]
    rfl
  | letIn decls body =>
    -- the body of the block is the last of its subexpressions
    rw [Expr.children_letIn, fireFirstOf_append, fireFirstOf_singleton]
    simp only [fireFirstOfDecls_eq, Attempt.map_orElse, Attempt.map_map]
    congr 1
    -- as many right-hand sides come back as there were, so each declaration gets its own
    · refine Attempt.map_congr fun bodies supply h => ?_
      exact (Expr.withChildren_letIn (length_fireFirstOf _ bodies supply h) body body).symm
    · funext _
      refine Attempt.map_congr fun body' supply h => ?_
      have hnode : (Expr.letIn decls body).withChildren (Decl.bodies decls ++ [body'])
          = .letIn decls body' := by
        rw [Expr.withChildren_letIn rfl, Decl.withBodies_bodies]
      exact hnode.symm
  | caseOf scrutinee arms =>
    simp only [Expr.children, fireFirstOf_cons, fireFirstOfArms_eq, Attempt.map_orElse,
      Attempt.map_map]
    congr 1
    · refine Attempt.map_congr fun scrutinee' supply h => ?_
      have hnode : (Expr.caseOf scrutinee arms).withChildren (scrutinee' :: arms.map Arm.body)
          = .caseOf scrutinee' arms := by
        rw [Expr.withChildren, Arm.withBodies_bodies]
      exact hnode.symm

/-- There is nothing to do in an expression if there is nothing to do at any place in it. -/
theorem fireFirst_eq_none_iff {e : Expr} :
    fireFirst change e = .ok none ↔ e.Everywhere fun c => change c = .ok none := by
  induction e using Expr.induction_children with
  | step e ih =>
    rw [fireFirst_eq, Attempt.orElse_eq_none, Attempt.map_eq_none, fireFirstOf_eq_none_iff,
      Expr.everywhere_iff]
    exact and_congr_right fun _ => forall₂_congr ih

/-- An expression fails only if the change at some place in it does. -/
theorem fireFirst_ne_error {e : Expr} {error : ClauseError}
    (h : e.Everywhere fun c => change c ≠ .error error) :
    fireFirst change e ≠ .error error := by
  induction h with
  | intro hnode _ ih =>
    intro hfire
    rw [fireFirst_eq, Attempt.orElse_eq_error, Attempt.map_eq_error] at hfire
    rcases hfire with hfire | ⟨-, hfire⟩
    · exact hnode hfire
    · obtain ⟨c, hc, hfire⟩ := exists_of_fireFirstOf_eq_error hfire
      exact ih c hc hfire

/-! ## Rewriting -/

/-- One subexpression of an expression is replaced by another that it is related to. -/
inductive Expr.Rewrites (R : Expr → Expr → Prop) : Expr → Expr → Prop
  | root {e e' : Expr} : R e e' → Rewrites R e e'
  | child {e c c' : Expr} {before after : List Expr} : e.children = before ++ c :: after →
    Rewrites R c c' → Rewrites R e (e.withChildren (before ++ c' :: after))

/-- There are as many subexpressions when one of them is replaced. -/
theorem Expr.length_of_children_eq {e c : Expr} {before after : List Expr}
    (h : e.children = before ++ c :: after) (c' : Expr) :
    (before ++ c' :: after).length = e.children.length := by
  rw [h, List.length_append, List.length_append]
  rfl

/-- A change is made to one subexpression. -/
theorem fireFirst_rewrites {e e' : Expr} {supply : FreshSupply}
    (h : fireFirst change e = .ok (some (e', supply))) :
    e.Rewrites (fun c c' => change c = .ok (some (c', supply))) e' := by
  induction e using Expr.induction_children generalizing e' with
  | step e ih =>
    rw [fireFirst_eq, Attempt.orElse_eq_some, Attempt.map_eq_some] at h
    rcases h with h | ⟨-, new, h, rfl⟩
    · exact .root h
    · obtain ⟨before, c, c', after, hchildren, rfl, hc⟩ := exists_of_fireFirstOf_eq_some h
      refine .child hchildren (ih c ?_ hc)
      rw [hchildren]
      exact List.mem_append_right before List.mem_cons_self

end Clausal
