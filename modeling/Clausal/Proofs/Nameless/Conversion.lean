import Clausal.Proofs.Nameless.Reduction

/-!
# Conversion of nameless terms

Two terms are convertible if contractions lead from one to the other, forwards and backwards.
Conversion goes through all forms of terms and through substitution. The contractions that
programs are made of are stated here as conversions.

## Main results

* `Nameless.Conv.exists_steps`: convertible terms reduce to a common one;
* `Nameless.Conv.subst`: convertible terms stay so when convertible terms replace their indices;
* `Nameless.conv_select`, `Nameless.conv_branch`, `Nameless.conv_fix`: what the delta rules do.
-/

namespace Clausal.Nameless

variable {t t' u u' v f f' a a' : Nameless} {σ σ' : Nat → Nameless}

/-- Whether contractions, forwards and backwards, lead from one term to another. -/
def Conv : Nameless → Nameless → Prop := Relation.EqvGen Step

namespace Conv

theorem refl (t : Nameless) : Conv t t := Relation.EqvGen.refl t

theorem of_eq (h : t = u) : Conv t u := h ▸ refl t

theorem symm (h : Conv t u) : Conv u t := Relation.EqvGen.symm _ _ h

theorem trans (h : Conv t u) (h' : Conv u v) : Conv t v := Relation.EqvGen.trans _ _ _ h h'

theorem of_step (h : Step t u) : Conv t u := Relation.EqvGen.rel _ _ h

theorem of_steps (h : Steps t u) : Conv t u := by
  induction h with
  | refl => exact refl t
  | tail _ hstep ih => exact ih.trans (of_step hstep)

/-- What takes contractions to conversions takes conversions to conversions. -/
theorem lift {g : Nameless → Nameless} (hg : ∀ t u, Step t u → Conv (g t) (g u)) (h : Conv t u) :
    Conv (g t) (g u) := by
  induction h with
  | rel _ _ hstep => exact hg _ _ hstep
  | refl _ => exact refl _
  | symm _ _ _ ih => exact ih.symm
  | trans _ _ _ _ _ ih ih' => exact ih.trans ih'

/-- Convertible terms reduce to a common one. -/
theorem exists_steps (h : Conv t u) : ∃ v, Steps t v ∧ Steps u v := by
  induction h with
  | rel _ u hstep => exact ⟨u, .single hstep, .refl⟩
  | refl t => exact ⟨t, .refl, .refl⟩
  | symm _ _ _ ih =>
    obtain ⟨v, hv, hv'⟩ := ih
    exact ⟨v, hv', hv⟩
  | trans _ _ _ _ _ ih ih' =>
    obtain ⟨v, htv, huv⟩ := ih
    obtain ⟨w, huw, hw⟩ := ih'
    obtain ⟨x, hvx, hwx⟩ := huv.confluent huw
    exact ⟨x, htv.trans hvx, hw.trans hwx⟩

/-! ## Forms of terms -/

theorem app (hf : Conv f f') (ha : Conv a a') : Conv (app f a) (app f' a') :=
  (hf.lift (g := fun f => f.app a) fun _ _ h => of_step (.func a h)).trans
    (ha.lift (g := f'.app) fun _ _ h => of_step (.arg f' h))

theorem abs (stem : String) (h : Conv t u) : Conv (abs stem t) (abs stem u) :=
  h.lift fun _ _ h => of_step (.abs stem h)

theorem applyAll {args args' : List Nameless} (hf : Conv f f')
    (hargs : List.Forall₂ Conv args args') : Conv (f.applyAll args) (f'.applyAll args') := by
  induction hargs generalizing f f' with
  | nil => exact hf
  | cons harg _ ih => exact ih (hf.app harg)

/-! ## Substitution -/

theorem subst_left (h : Conv t u) (σ : Nat → Nameless) : Conv (t.subst σ) (u.subst σ) :=
  h.lift fun _ _ h => of_steps (h.par.subst_left σ).steps

theorem shift (h : Conv t u) : Conv t.shift u.shift := by
  simp only [Nameless.shift, rename_eq_subst]
  exact h.subst_left _

theorem under (h : ∀ i, Conv (σ i) (σ' i)) (i : Nat) : Conv (under σ i) (Nameless.under σ' i) := by
  cases i with
  | zero => exact refl _
  | succ i => exact (h i).shift

theorem subst_right (t : Nameless) (h : ∀ i, Conv (σ i) (σ' i)) :
    Conv (t.subst σ) (t.subst σ') := by
  induction t generalizing σ σ' with
  | bound i => exact h i
  | free _ | const _ => exact refl _
  | abs stem body ih => exact (ih (under h)).abs stem
  | app func arg ihf iha => exact (ihf h).app (iha h)

/-- Convertible terms stay so when convertible terms replace their indices. -/
theorem subst (h : Conv t u) (hσ : ∀ i, Conv (σ i) (σ' i)) : Conv (t.subst σ) (u.subst σ') :=
  (h.subst_left σ).trans (subst_right u hσ)

end Conv

/-! ## Contractions -/

theorem conv_beta (stem : String) (body arg : Nameless) :
    Conv (app (abs stem body) arg) (body.instantiate arg) :=
  .of_step (.beta stem body arg)

/-- A fixpoint is what its function makes of it. -/
theorem conv_fix (function : Nameless) :
    Conv (app (const (.primitive .fix)) function)
      (app function (app (const (.primitive .fix)) function)) :=
  .of_step (.delta (.fix function))

/-- A constant is convertible to the answer of its rule to closed arguments. -/
theorem conv_answer {c : Constant} {result : Nameless} (args : List Nameless) (answer : Answer)
    (hclosed : ∀ arg ∈ args, arg.Closed) (hanswer : c.answer? (args.map kind) = some answer)
    (hresult : answer.nameless? (args.head?.elim [] Nameless.args) = some result) :
    Conv ((const c).applyAll args) result :=
  .of_step (.delta (.of_args hclosed hanswer hresult))

/-- A test answers from the kind of a closed term. -/
theorem conv_test (hclosed : t.Closed) {primitive : Primitive} {answer : Bool}
    (hanswer : (Constant.primitive primitive).answer? [t.kind]
      = some (.literal (.bool answer))) :
    Conv (app (const (.primitive primitive)) t) (const (.literal (.bool answer))) :=
  conv_answer [t] (.literal (.bool answer)) (List.forall_mem_singleton.2 hclosed) hanswer rfl

/-- A component of a closed tuple. -/
theorem conv_select {components : List Nameless} (hclosed : ∀ t ∈ components, t.Closed) {i : Nat}
    (hi : components[i]? = some t) :
    Conv (app (const (.primitive (.select components.length (i + 1))))
      ((const (.primitive (.tuple components.length))).applyAll components)) t := by
  have hlt := (List.getElem?_eq_some_iff.1 hi).1
  have hkind : ((const (.primitive (.tuple components.length))).applyAll components).kind
      = .tuple components.length := by
    rw [kind_const_applyAll, Constant.kind, if_pos rfl]
  refine conv_answer [_] (.component i) ?_ ?_ ?_
  · rw [List.forall_mem_singleton]
    exact closedAt_applyAll.2 ⟨trivial, hclosed⟩
  · rw [List.map_singleton, hkind, Constant.answer?, if_pos ⟨rfl, hlt⟩]
  · rw [List.head?_cons, Option.elim_some, args_applyAll]
    exact hi

/-- The branch that the condition chooses. -/
theorem conv_branch {condition : Nameless} {value : Bool}
    (h : Conv condition (const (.literal (.bool value)))) (positive negative : Nameless) :
    Conv ((const (.primitive .branch)).applyAll [condition, positive, negative])
      (if value then positive else negative) := by
  have hchoice : Conv (app (const (.primitive .branch)) condition)
      (if value then firstOfTwo else secondOfTwo).nameless :=
    ((Conv.refl _).app h).trans <| conv_answer [_] (.choice value)
      (List.forall_mem_singleton.2 trivial) rfl rfl
  refine ((hchoice.app (.refl positive)).app (.refl negative)).trans ?_
  cases value with
  | true =>
    refine ((conv_beta _ _ positive).app (.refl negative)).trans ?_
    refine (conv_beta _ _ negative).trans (.of_eq ?_)
    exact instantiate_shift positive negative
  | false =>
    exact ((conv_beta _ _ positive).app (.refl negative)).trans (conv_beta _ _ negative)

end Clausal.Nameless
