import Clausal.Proofs.Lists
import Clausal.Proofs.Typing.Instance

/-!
# Normal forms of types

Two types are variants of each other if they differ in nothing but the choice of their variables:
a bijection between the variables of the one and those of the other turns the one into the other.
A type with its variables numbered in order of first appearance is the variant that stands for all
of them, so types are compared up to their variables by comparing what is normalized.

The numbers may be variables of the type already. A variable that has a name is never one of them,
whatever its number is.

## Main results

* `Ty.Variant.refl`, `Ty.Variant.symm`, `Ty.Variant.trans`: to be variants is an equivalence;
* `Ty.variant_normalized`: a type is a variant of what it is normalized to;
* `Ty.Variant.normalized_eq`: variants are normalized to the same type;
* `Ty.normalized_canonical`: types are normalized to the same type just if they are variants.
-/

namespace Clausal.Ty

variable {t u w : Ty} {rename : TypeVar → TypeVar}

/-! ## Variants -/

/-- A bijection between the variables of two types turns the first into the second. -/
def Variant (t u : Ty) : Prop :=
  ∃ rename : TypeVar → TypeVar, Set.BijOn rename {v | v ∈ t.vars} {v | v ∈ u.vars}
    ∧ t.bind (fun v => .var (rename v)) = u

/-- The variables of a type after a change of variables, each as often as it appears. -/
theorem vars_bind_var (t : Ty) (rename : TypeVar → TypeVar) :
    (t.bind fun v => .var (rename v)).vars = t.vars.map rename := by
  rw [vars_bind]
  exact List.map_eq_flatMap.symm

/-- A change of variables that keeps different variables apart makes a variant. -/
theorem variant_bind (h : Set.InjOn rename {v | v ∈ t.vars}) :
    t.Variant (t.bind fun v => .var (rename v)) := by
  have himage : {v | v ∈ (t.bind fun v => .var (rename v)).vars} = rename '' {v | v ∈ t.vars} := by
    rw [vars_bind_var]
    ext v
    exact List.mem_map
  exact ⟨rename, himage ▸ h.bijOn_image, rfl⟩

namespace Variant

theorem refl (t : Ty) : t.Variant t := ⟨id, Set.bijOn_id _, bind_self t⟩

/-- The inverse bijection turns the second type into the first again. -/
theorem symm (h : t.Variant u) : u.Variant t := by
  obtain ⟨rename, hbij, rfl⟩ := h
  have : Nonempty TypeVar := ⟨.numbered 0⟩
  have hinv := hbij.invOn_invFunOn
  refine ⟨_, hbij.symm hinv.symm, ?_⟩
  rw [bind_bind]
  exact (bind_congr fun v hv => congrArg Ty.var (hinv.1 hv)).trans (bind_self t)

theorem trans (h : t.Variant u) (h' : u.Variant w) : t.Variant w := by
  obtain ⟨rename, hbij, rfl⟩ := h
  obtain ⟨rename', hbij', rfl⟩ := h'
  refine ⟨rename' ∘ rename, hbij'.comp hbij, ?_⟩
  rw [bind_bind]
  rfl

end Variant

/-! ## Numbered variables -/

/-- Different variables get different numbers. -/
theorem injOn_idxOf_distinctVars (t : Ty) :
    Set.InjOn (fun v => t.distinctVars.idxOf v) {v | v ∈ t.vars} :=
  fun _ hv _ _ h => (List.idxOf_inj (mem_distinctVars.2 hv)).1 h

theorem variant_normalized (t : Ty) : t.Variant t.normalized :=
  variant_bind fun _ hv _ hw h =>
    injOn_idxOf_distinctVars t hv hw (congrArg TypeVar.id h)

/-- Variables appear in the order of those that they are a change of. -/
theorem distinctVars_bind_var (h : Set.InjOn rename {v | v ∈ t.vars}) :
    (t.bind fun v => .var (rename v)).distinctVars = t.distinctVars.map rename := by
  rw [distinctVars, vars_bind_var, distinctVars]
  exact eraseDups_map fun v hv w hw => h hv hw

/-- Variants are normalized to the same type: a variable has the number of the one that it turns
into. -/
theorem Variant.normalized_eq (h : t.Variant u) : t.normalized = u.normalized := by
  obtain ⟨rename, hbij, rfl⟩ := h
  rw [normalized, normalized, distinctVars_bind_var hbij.injOn, bind_bind]
  refine bind_congr fun v hv => congrArg Ty.numbered ?_
  refine (idxOf_map fun w hw heq => ?_).symm
  exact hbij.injOn (mem_distinctVars.1 hw) hv heq

theorem normalized_normalized (t : Ty) : t.normalized.normalized = t.normalized :=
  (variant_normalized t).normalized_eq.symm

/-- Types are normalized to the same type just if some bijection between their variables turns one
into the other. What is normalized is not changed any more, and different variables become
different numbers. -/
theorem normalized_canonical (t u : Ty) :
    (t.normalized = u.normalized ↔ t.Variant u)
      ∧ t.normalized.normalized = t.normalized
      ∧ ∃ number : TypeVar → Nat, Set.InjOn number {v | v ∈ t.vars}
        ∧ t.normalized = t.bind fun v => .numbered (number v) := by
  refine ⟨⟨fun h => ?_, Variant.normalized_eq⟩, normalized_normalized t,
    _, injOn_idxOf_distinctVars t, rfl⟩
  -- both are variants of the one type that they are normalized to
  have hu : t.normalized.Variant u := h ▸ (variant_normalized u).symm
  exact (variant_normalized t).trans hu

/-- A variable with a name is not the one without that has the same number. The new numbers are
given while they are in use for other variables. -/
example :
    (arrow (.tuple [.numbered 1, .var ⟨0, some "a"⟩]) (.tuple [.numbered 0, .numbered 1])).normalized
      = arrow (.tuple [.numbered 0, .numbered 1]) (.tuple [.numbered 2, .numbered 0]) := by
  rfl

end Clausal.Ty
