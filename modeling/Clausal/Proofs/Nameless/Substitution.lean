import Clausal.Proofs.Nameless.Alpha

/-!
# Substitution for a free variable

Without names nothing can be captured, and substitution for a free variable is a plain recursion
that shifts the replacement below each binder. The substitution of named terms, which gives
binders fresh names, is this one.

## Main results

* `Nameless.substFree_rename`: a change of indices commutes with the substitution;
* `Term.nameless_subst`: the reading of a substitution is the substitution of the readings;
* `Term.subst_captureAvoiding`: substitution of named terms in terms of their De Bruijn forms.
-/

namespace Clausal

namespace Nameless

/-- The term with a replacement for a free variable. -/
def substFree (t : Nameless) (name : String) (replacement : Nameless) : Nameless :=
  match t with
  | bound i => bound i
  | free other => if other = name then replacement else free other
  | const c => const c
  | abs stem body => abs stem (body.substFree name replacement.shift)
  | app func arg => app (func.substFree name replacement) (arg.substFree name replacement)

theorem substFree_rename (t u : Nameless) (name : String) (ξ : Nat → Nat) :
    (t.rename ξ).substFree name (u.rename ξ) = (t.substFree name u).rename ξ := by
  induction t generalizing u ξ with
  | free other =>
    rw [rename, substFree, substFree]
    split <;> rfl
  | abs stem body ih => rw [rename, substFree, ← shift_rename, ih, substFree, rename]
  | app func arg ihf iha => rw [rename, substFree, ihf, iha, substFree, rename]
  | bound _ | const _ => rfl

theorem substFree_shift (t u : Nameless) (name : String) :
    t.shift.substFree name u.shift = (t.substFree name u).shift :=
  substFree_rename t u name Nat.succ

/-- The stems of a substitution do not matter. -/
theorem bare_substFree (t u : Nameless) (name : String) :
    (t.substFree name u).bare = t.bare.substFree name u.bare := by
  induction t generalizing u with
  | free other =>
    rw [bare, substFree, substFree]
    split <;> rfl
  | abs stem body ih => rw [substFree, bare, ih, bare_shift, bare, substFree]
  | app func arg ihf iha => rw [substFree, bare, ihf, iha, bare, substFree]
  | bound _ | const _ => rfl

end Nameless

/-- A substitution in an environment, below a binder. -/
theorem Environment.bind_substFree (env : Environment) (x name : String) (u : Nameless) :
    (fun y => (env.bind x y).substFree name u.shift)
      = bind x fun y => (env y).substFree name u := by
  funext y
  by_cases h : y = x
  · rw [h, bind_self, bind_self]
    rfl
  · rw [bind_of_ne h, bind_of_ne h, Nameless.substFree_shift]

namespace Term

variable {t t' u u' : Term}

/-- Substitution in what was read is one in the environment. -/
theorem substFree_read (t : Term) (env : Environment) (name : String) (u : Nameless) :
    (t.read env).substFree name u = t.read fun y => (env y).substFree name u := by
  induction t generalizing env u with
  | var _ | const _ => rfl
  | abs param body ih => rw [read, Nameless.substFree, ih, Environment.bind_substFree, read]
  | app func arg ihf iha => rw [read, Nameless.substFree, ihf, iha, read]

/-- The reading of a substitution is the substitution of the readings. -/
theorem nameless_subst (t : Term) (name : String) (u : Term) :
    (t.subst name u).nameless = t.nameless.substFree name u.nameless := by
  have henv : Function.update .free name u.nameless
      = fun y => (Nameless.free y).substFree name u.nameless := by
    funext y
    rw [Nameless.substFree]
    split
    · next h => rw [h, Function.update_self]
    · next h => rw [Function.update_of_ne h]
  rw [nameless, read_subst, nameless, substFree_read]
  exact congrArg t.read henv

theorem deBruijn_subst (t : Term) (name : String) (u : Term) :
    (t.subst name u).deBruijn = t.deBruijn.substFree name u.deBruijn := by
  rw [deBruijn, nameless_subst, Nameless.bare_substFree]
  rfl

/-- Substitution is one of terms up to the names of bound variables. -/
theorem Alpha.subst (ht : Alpha t t') (name : String) (hu : Alpha u u') :
    Alpha (t.subst name u) (t'.subst name u') := by
  rw [alpha_iff] at ht hu ⊢
  rw [deBruijn_subst, deBruijn_subst, ht, hu]

/-- Substitution is capture avoiding: it always ends, since it recurs on the size of the term, its
De Bruijn form is the substitution of De Bruijn forms, it depends on the two terms only up to the
names of bound variables, and the free variables of the result are those of the term but for the
variable, with those of the replacement exactly if the variable is free. -/
theorem subst_captureAvoiding (t : Term) (name : String) (u : Term) :
    (t.subst name u).deBruijn = t.deBruijn.substFree name u.deBruijn
      ∧ (∀ t' u', Alpha t t' → Alpha u u' → Alpha (t.subst name u) (t'.subst name u'))
      ∧ ∀ other, other ∈ (t.subst name u).free
        ↔ other ∈ t.free ∧ other ≠ name ∨ name ∈ t.free ∧ other ∈ u.free :=
  ⟨deBruijn_subst t name u, fun _ _ ht hu => ht.subst name hu, fun _ => mem_free_subst⟩

/-- A variable in a body whose binder has the name of the replacement: the binder gives way, and
another name of the binder does not change the result but for names. -/
theorem subst_captureAvoiding_binder :
    ((Term.abs "y" (.var "x")).subst "x" (.var "y")).deBruijn = .abs "" (.free "y")
      ∧ Alpha ((Term.abs "y" (.var "x")).subst "x" (.var "y"))
        ((Term.abs "z" (.var "x")).subst "x" (.var "y"))
      ∧ "y" ∈ ((Term.abs "y" (.var "x")).subst "x" (.var "y")).free := by
  obtain ⟨hform, halpha, hfree⟩ := subst_captureAvoiding (.abs "y" (.var "x")) "x" (.var "y")
  refine ⟨hform, halpha _ _ (alpha_iff.2 ?_) (.refl _), (hfree "y").2 (.inr ?_)⟩
  · decide
  · decide

end Term

end Clausal
