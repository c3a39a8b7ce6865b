import Clausal.Core.FromSurface
import Clausal.Proofs.Simplification.Stages

/-!
# The surface expressions that are core expressions

A surface expression has a core expression just if it is made of the nodes that core expressions
have: every lambda and every block is of one variable, or the block is empty, and there is no
case.

## Main results

* `Core.exists_ofExpr_eq_ok_iff`: the grammar of the expressions that have a core expression.
-/

namespace Clausal.Core

theorem exists_bind_eq_ok_iff {ε α β : Type} {first : Except ε α} {rest : α → Except ε β} :
    (∃ b, first >>= rest = .ok b) ↔ ∃ a, first = .ok a ∧ ∃ b, rest a = .ok b := by
  cases first with
  | error error =>
    refine iff_of_false ?_ ?_
    · rintro ⟨b, h⟩
      cases h
    · rintro ⟨a, h, -⟩
      cases h
  | ok a =>
    constructor
    · exact fun h => ⟨a, rfl, h⟩
    · rintro ⟨a', h, hrest⟩
      cases h
      exact hrest

theorem exists_pure_eq_ok {ε α : Type} (a : α) : ∃ b, (pure a : Except ε α) = .ok b := ⟨a, rfl⟩

/-- A list of expressions has core expressions if each of its members has one. -/
theorem exists_ofExprs_eq_ok_iff {es : List Expr} :
    (∃ cores, ofExprs es = .ok cores) ↔ ∀ e ∈ es, ∃ core, ofExpr e = .ok core := by
  induction es with
  | nil => simp [ofExprs]
  | cons e es ih =>
    simp only [ofExprs, exists_bind_eq_ok_iff, exists_pure_eq_ok, and_true, exists_and_right, ih,
      List.forall_mem_cons]

/-- A block is in the grammar of core expressions if it is empty or binds one variable. -/
theorem block_core_iff {decls : List (Decl Expr)} :
    Grammar.core.block (decls.map Decl.outline)
      ↔ decls = [] ∨ ∃ name value, decls = [.value (.var name) value] := by
  constructor
  · rintro (h | ⟨name, h⟩)
    · exact .inl (List.map_eq_nil_iff.1 h)
    · obtain ⟨decl, rfl, hdecl⟩ := List.map_eq_singleton_iff.1 h
      cases decl with
      | value pattern value =>
        cases hdecl
        exact .inr ⟨name, value, rfl⟩
      | clause _ _ _ | data _ => cases hdecl
  · rintro (rfl | ⟨name, value, rfl⟩)
    · exact .inl rfl
    · exact .inr ⟨name, rfl⟩

/-- An expression has a core expression just if it is in the grammar of core expressions. -/
theorem exists_ofExpr_eq_ok_iff {e : Expr} :
    (∃ core, ofExpr e = .ok core) ↔ Grammar.core.Generates e := by
  induction e using Expr.induction_children with
  | step e ih =>
    cases e with
    | var name | lit literal | con name | prim primitive => simp [ofExpr]
    | app func args =>
      obtain ⟨hfunc, hargs⟩ := List.forall_mem_cons.1 ih
      simp only [ofExpr, exists_bind_eq_ok_iff, exists_pure_eq_ok, and_true, exists_and_right,
        exists_ofExprs_eq_ok_iff]
      rw [Grammar.generates_app, hfunc]
      exact and_congr_right fun _ => forall₂_congr hargs
    | tuple elements =>
      simp only [ofExpr, exists_bind_eq_ok_iff, exists_pure_eq_ok, and_true,
        exists_ofExprs_eq_ok_iff]
      rw [Grammar.generates_tuple]
      exact forall₂_congr ih
    | cond condition positive negative =>
      simp only [Expr.children, List.forall_mem_cons] at ih
      obtain ⟨hcondition, hpositive, hnegative, -⟩ := ih
      simp only [ofExpr, exists_bind_eq_ok_iff, exists_pure_eq_ok, and_true, exists_and_right]
      rw [Grammar.generates_cond, hcondition, hpositive, hnegative]
    | lam params body =>
      rw [Grammar.generates_lam, ← List.forall_mem_singleton.1 ih]
      by_cases hparams : ∃ name, params = [.var name]
      · obtain ⟨name, rfl⟩ := hparams
        simp only [ofExpr, exists_bind_eq_ok_iff, exists_pure_eq_ok, and_true]
        exact (and_iff_right ⟨name, rfl⟩).symm
      · rw [ofExpr]
        · refine iff_of_false ?_ fun h => hparams h.1
          rintro ⟨_, h⟩
          cases h
        · exact fun name h => hparams ⟨name, h⟩
    | letIn decls body =>
      rw [Expr.children_letIn, List.forall_mem_append, List.forall_mem_singleton] at ih
      obtain ⟨hbodies, hbody⟩ := ih
      rw [Grammar.generates_letIn, block_core_iff, ← hbody]
      -- the two forms of blocks that core expressions have, against all others
      by_cases hblock : decls = [] ∨ ∃ name value, decls = [.value (.var name) value]
      · rw [and_iff_right hblock]
        obtain rfl | ⟨name, value, rfl⟩ := hblock
        · simp [ofExpr]
        · simp only [ofExpr, exists_bind_eq_ok_iff, exists_pure_eq_ok, and_true, exists_and_right]
          rw [Decl.bodies_value, Decl.bodies_nil, List.forall_mem_singleton,
            hbodies value List.mem_cons_self]
      · rw [ofExpr]
        · refine iff_of_false ?_ fun h => hblock h.1
          rintro ⟨_, h⟩
          cases h
        · exact fun h => hblock (.inl h)
        · exact fun name value h => hblock (.inr ⟨name, value, h⟩)
    | caseOf scrutinee arms =>
      rw [Grammar.generates_caseOf, ofExpr]
      refine iff_of_false ?_ fun h => h.1
      rintro ⟨_, h⟩
      cases h

end Clausal.Core
