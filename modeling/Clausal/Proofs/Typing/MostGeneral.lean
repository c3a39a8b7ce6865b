import Clausal.Proofs.Typing.Instance
import Clausal.Typing.Unification

/-!
# Most general solutions

What unification returns. A solution of equations is an image for the variables that makes the two
sides of each equation equal. `Unification.solve` finds a solution of which every other is an
instance, or there is none.

The equations that `solve` is left with after a step have the same solutions as those before it,
and it is by induction on its steps that the two directions are proved together
(`solve_spec`).

## Main results

* `unify_isMostGeneral`: a substitution that unification returns is most general;
* `not_unifiable_of_unify_error`: where it returns an error, no image makes the types equal.
-/

namespace Clausal

namespace Unification

/-- An image that makes the two sides of every equation equal. -/
def Solves (image : TypeVar → Ty) (equations : Equations) : Prop :=
  ∀ equation ∈ equations, equation.1.bind image = equation.2.bind image

/-- A solution through which every other one factors. It is about the variables of the equations
and brings in no others. -/
structure IsMostGeneral (s : Subst) (equations : Equations) : Prop where
  /-- It is a solution. -/
  solves : Solves s.image equations
  /-- A solution is the same before and after it. -/
  absorbed : ∀ image, Solves image equations → ∀ v, (s.image v).bind image = image v
  /-- It leaves the other variables alone. -/
  image_of_not_mem : ∀ v, v ∉ varsOf equations → s.image v = .var v
  /-- It maps the variables of the equations to types over them. -/
  mem_of_mem_image : ∀ v ∈ varsOf equations, ∀ w ∈ (s.image v).vars, w ∈ varsOf equations

/-! ## Solutions of the equations after a step -/

@[simp] theorem solves_nil (image : TypeVar → Ty) : Solves image [] := by
  simp [Solves]

@[simp] theorem solves_cons {image : TypeVar → Ty} {left right : Ty} {equations : Equations} :
    Solves image ((left, right) :: equations)
      ↔ left.bind image = right.bind image ∧ Solves image equations := by
  simp [Solves]

theorem solves_append {image : TypeVar → Ty} {equations equations' : Equations} :
    Solves image (equations ++ equations')
      ↔ Solves image equations ∧ Solves image equations' := by
  simp only [Solves, List.mem_append, or_imp, forall_and]

theorem solves_applyTo {image : TypeVar → Ty} {s : Subst} {equations : Equations} :
    Solves image (applyTo s equations)
      ↔ Solves (fun v => (s.image v).bind image) equations := by
  simp only [Solves, applyTo, List.forall_mem_map, Subst.apply, Ty.bind_bind]

theorem solves_zip {image : TypeVar → Ty} {as bs : List Ty} (h : as.length = bs.length) :
    Solves image (as.zip bs) ↔ as.map (Ty.bind image) = bs.map (Ty.bind image) := by
  induction as generalizing bs with
  | nil => cases bs <;> simp_all
  | cons a as ih =>
    cases bs with
    | nil => simp at h
    | cons b bs =>
      rw [List.zip_cons_cons, solves_cons, ih (Nat.succ.inj h)]
      simp

/-- An equation that determines a variable says what the image of the variable is. -/
theorem bind_eq_bind_iff_of_orient {image : TypeVar → Ty} {left right t : Ty} {v : TypeVar}
    (h : orient? left right = some (v, t)) :
    left.bind image = right.bind image ↔ image v = t.bind image := by
  match left, right with
  | .var _, _ =>
    simp only [orient?, Option.some.injEq, Prod.mk.injEq] at h
    obtain ⟨rfl, rfl⟩ := h
    exact Iff.rfl
  | .con _ _, .var _ =>
    simp only [orient?, Option.some.injEq, Prod.mk.injEq] at h
    obtain ⟨rfl, rfl⟩ := h
    exact eq_comm
  | .con _ _, .con _ _ => simp [orient?] at h

/-- Two types of which none is a variable are both built by a constructor. -/
theorem exists_con_of_orient {left right : Ty} (h : orient? left right = none) :
    ∃ c as d bs, left = .con c as ∧ right = .con d bs := by
  cases left with
  | var v => cases right <;> contradiction
  | con c as =>
    cases right with
    | var v => contradiction
    | con d bs => exact ⟨c, as, d, bs, rfl, rfl⟩

/-- An image that already sends a variable where a replacement does is the same before and after
the replacement. -/
theorem bind_single {image : TypeVar → Ty} {v : TypeVar} {t : Ty} (h : image v = t.bind image)
    (w : TypeVar) : ((Subst.single v t).image w).bind image = image w := by
  rw [Subst.image_single]
  split
  · next hw => rw [hw, h]
  · rfl

/-- A variable determined by an equation can be replaced in the other equations. -/
theorem solves_cons_iff_of_orient {image : TypeVar → Ty} {left right t : Ty} {v : TypeVar}
    {equations : Equations} (h : orient? left right = some (v, t)) :
    Solves image ((left, right) :: equations)
      ↔ image v = t.bind image ∧ Solves image (applyTo (.single v t) equations) := by
  rw [solves_cons, bind_eq_bind_iff_of_orient h, solves_applyTo]
  refine and_congr_right fun hv => ?_
  rw [show (fun w => ((Subst.single v t).image w).bind image) = image from
    funext (bind_single hv)]

/-- An equation between types of one constructor says that the arguments are equal. -/
theorem solves_cons_con {image : TypeVar → Ty} {c : TyCon} {as bs : List Ty}
    {equations : Equations} (h : as.length = bs.length) :
    Solves image ((.con c as, .con c bs) :: equations)
      ↔ Solves image (as.zip bs ++ equations) := by
  rw [solves_cons, solves_append, solves_zip h, Ty.bind_con, Ty.bind_con]
  simp

/-- An argument of a type constructor is no larger than the arguments together. -/
theorem size_le_sizeList {t : Ty} {args : List Ty} (h : t ∈ args) : t.size ≤ Ty.sizeList args := by
  induction args with
  | nil => simp at h
  | cons arg args ih =>
    rw [Ty.sizeList]
    rcases List.mem_cons.1 h with rfl | h
    · omega
    · have := ih h
      omega

/-- A variable in a type has an image no larger than the image of the type. -/
theorem size_image_le {image : TypeVar → Ty} {v : TypeVar} {t : Ty} (h : v ∈ t.vars) :
    (image v).size ≤ (t.bind image).size := by
  induction t using Ty.args_induction with
  | var w => exact Nat.le_of_eq (by rw [Ty.mem_vars_var.1 h, Ty.bind_var])
  | con c args ih =>
    obtain ⟨t, ht, hv⟩ := Ty.mem_vars_con.1 h
    have hle := ih t ht hv
    have hargs := size_le_sizeList (List.mem_map_of_mem (f := Ty.bind image) ht)
    rw [Ty.bind_con, Ty.size]
    omega

/-- The occurs check is right: a variable in a larger type never has the image of that type. -/
theorem image_ne_bind {image : TypeVar → Ty} {v : TypeVar} {t : Ty} (h : v ∈ t.vars)
    (hne : t.asVar? ≠ some v) : image v ≠ t.bind image := by
  match t with
  | .var w =>
    rw [Ty.mem_vars_var.1 h] at hne
    exact absurd rfl hne
  | .con c args =>
    obtain ⟨t, ht, hv⟩ := Ty.mem_vars_con.1 h
    intro heq
    -- the arguments together are smaller than the type, and one of them holds the variable
    have hle : (image v).size ≤ (t.bind image).size := size_image_le hv
    have hargs := size_le_sizeList (List.mem_map_of_mem (f := Ty.bind image) ht)
    rw [heq, Ty.bind_con, Ty.size] at hle
    omega

/-! ## Variables -/

theorem mem_varsOf {v : TypeVar} {equations : Equations} :
    v ∈ varsOf equations
      ↔ ∃ equation ∈ equations, v ∈ equation.1.vars ∨ v ∈ equation.2.vars := by
  simp only [varsOf, List.mem_flatMap, List.mem_append]

theorem varsOf_cons (left right : Ty) (equations : Equations) :
    varsOf ((left, right) :: equations) = left.vars ++ right.vars ++ varsOf equations := rfl

/-- What an equation determines is made of its variables. -/
theorem mem_varsOf_of_orient {left right t : Ty} {v w : TypeVar} {equations : Equations}
    (h : orient? left right = some (v, t)) (hw : w = v ∨ w ∈ t.vars) :
    w ∈ varsOf ((left, right) :: equations) := by
  rw [varsOf_cons]
  exact List.mem_append_left _ ((orient_vars h w).2 hw)

/-- Replacing a variable by what an equation says of it brings in no variables. -/
theorem varsOf_applyTo_subset {left right t : Ty} {v : TypeVar} {equations : Equations}
    (h : orient? left right = some (v, t)) :
    varsOf (applyTo (.single v t) equations) ⊆ varsOf ((left, right) :: equations) := by
  intro w hw
  simp only [mem_varsOf, applyTo, List.mem_map] at hw
  obtain ⟨_, ⟨⟨a, b⟩, hmem, rfl⟩, hw⟩ := hw
  simp only [Subst.mem_vars_apply_single] at hw
  -- a variable of the result was there before or is one of the replacement
  by_cases hwt : w ∈ t.vars
  · exact mem_varsOf_of_orient h (.inr hwt)
  · rw [varsOf_cons]
    exact List.mem_append_right _ (mem_varsOf.2 ⟨(a, b), hmem, by grind⟩)

/-- The equations of the arguments have the variables of the types. -/
theorem varsOf_zip_append_subset (c : TyCon) (as bs : List Ty) (equations : Equations) :
    varsOf (as.zip bs ++ equations) ⊆ varsOf ((.con c as, .con c bs) :: equations) := by
  intro v hv
  rw [varsOf, List.flatMap_append] at hv
  rw [varsOf_cons]
  rcases List.mem_append.1 hv with hv | hv
  · exact List.mem_append_left _ (varsOf_zip as bs hv)
  · exact List.mem_append_right _ hv

/-! ## Most general solutions -/

namespace IsMostGeneral

variable {s : Subst} {equations : Equations}

/-- No equations have the substitution that changes nothing as their most general solution. -/
theorem nil : IsMostGeneral .empty [] where
  solves := solves_nil _
  absorbed _ _ _ := rfl
  image_of_not_mem _ _ := rfl
  mem_of_mem_image _ hv := by simp [varsOf] at hv

/-- Equations with the same solutions over no fewer variables have the same most general
solution. -/
theorem of_solves_iff {equations' : Equations} (h : IsMostGeneral s equations)
    (hiff : ∀ image, Solves image equations' ↔ Solves image equations)
    (hsubset : varsOf equations ⊆ varsOf equations') : IsMostGeneral s equations' where
  solves := (hiff _).2 h.solves
  absorbed image himage := h.absorbed image ((hiff image).1 himage)
  image_of_not_mem v hv := h.image_of_not_mem v fun hmem => hv (hsubset hmem)
  mem_of_mem_image v hv w hw := by
    by_cases hmem : v ∈ varsOf equations
    · exact hsubset (h.mem_of_mem_image v hmem w hw)
    · rw [h.image_of_not_mem v hmem, Ty.mem_vars_var] at hw
      rwa [hw]

/-- The most general solution after a variable has been replaced, and the replacement before it,
are the most general solution with the equation that determines the variable. -/
theorem compose_single {left right t : Ty} {v : TypeVar}
    (h : IsMostGeneral s (applyTo (.single v t) equations))
    (horient : orient? left right = some (v, t)) (hoccurs : v ∉ t.vars) :
    IsMostGeneral (s.compose (.single v t)) ((left, right) :: equations) where
  solves := by
    have himage : (s.compose (.single v t)).image
        = fun w => ((Subst.single v t).image w).bind s.image :=
      funext fun w => Subst.image_compose s _ w
    rw [solves_cons, bind_eq_bind_iff_of_orient horient, himage, ← solves_applyTo]
    refine ⟨?_, h.solves⟩
    -- the replacement does not mention the variable, so it is left as it is
    dsimp only
    rw [Subst.image_single, if_pos rfl]
    refine Ty.bind_congr fun w hw => ?_
    have hne : w ≠ v := fun heq => hoccurs (heq ▸ hw)
    rw [Subst.image_single, if_neg hne, Ty.bind_var]
  absorbed image himage w := by
    -- any solution satisfies the equation of the variable, so it absorbs the replacement too
    obtain ⟨hv, hrest⟩ := (solves_cons_iff_of_orient horient).1 himage
    rw [Subst.image_compose, Subst.apply, Ty.bind_bind,
      Ty.bind_congr fun u _ => h.absorbed image hrest u]
    exact bind_single hv w
  image_of_not_mem w hw := by
    have hne : w ≠ v := fun heq => hw (mem_varsOf_of_orient horient (.inl heq))
    rw [Subst.image_compose, Subst.image_single, if_neg hne]
    exact h.image_of_not_mem w fun hmem => hw (varsOf_applyTo_subset horient hmem)
  mem_of_mem_image w hw u hu := by
    rw [Subst.image_compose, Subst.mem_vars_apply] at hu
    obtain ⟨x, hx, hu⟩ := hu
    -- the replacement stays within the variables, and so does the solution after it
    have hxmem : x ∈ varsOf ((left, right) :: equations) := by
      rw [Subst.image_single] at hx
      split at hx
      · exact mem_varsOf_of_orient horient (.inr hx)
      · rwa [Ty.mem_vars_var.1 hx]
    by_cases hmem : x ∈ varsOf (applyTo (.single v t) equations)
    · exact varsOf_applyTo_subset horient (h.mem_of_mem_image x hmem u hu)
    · rw [h.image_of_not_mem x hmem, Ty.mem_vars_var] at hu
      rwa [hu]

end IsMostGeneral

/-- Solving returns a most general solution, or there is no solution. -/
theorem solve_spec (equations : Equations) :
    (∀ s, solve equations = .ok s → IsMostGeneral s equations)
      ∧ (∀ error, solve equations = .error error → ∀ image, ¬Solves image equations) := by
  -- both statements at once, by the steps of the solver: a step keeps the set of solutions
  fun_induction solve equations with
  | case1 =>
    refine ⟨fun s h => ?_, nofun⟩
    obtain rfl := Except.ok.inj h
    exact .nil
  -- both sides are the same variable
  | case2 left right equations v t horient hvar ih =>
    have hiff : ∀ image, Solves image ((left, right) :: equations) ↔ Solves image equations := by
      intro image
      have ht : t = .var v := by
        cases t with
        | var w => exact congrArg Ty.var (Option.some.inj hvar)
        | con _ _ => simp [Ty.asVar?] at hvar
      rw [solves_cons, bind_eq_bind_iff_of_orient horient, ht, Ty.bind_var]
      exact and_iff_right rfl
    refine ⟨fun s h => (ih.1 s h).of_solves_iff hiff ?_, fun error h image himage => ?_⟩
    · rw [varsOf_cons]
      exact List.subset_append_right _ _
    · exact ih.2 error h image ((hiff image).1 himage)
  -- the variable would have to contain itself
  | case3 left right equations v t horient hvar hoccurs =>
    refine ⟨nofun, fun _ _ image himage => ?_⟩
    exact image_ne_bind hoccurs hvar ((solves_cons_iff_of_orient horient).1 himage).1
  -- the variable is replaced in the other equations
  | case4 left right equations v t horient hvar hoccurs ih =>
    match hsolve : solve (applyTo (.single v t) equations) with
    | .ok s' =>
      refine ⟨fun s h => ?_, nofun⟩
      obtain rfl := Except.ok.inj h
      exact (ih.1 s' hsolve).compose_single horient hoccurs
    | .error error =>
      refine ⟨nofun, fun _ _ image himage => ?_⟩
      exact ih.2 error hsolve image ((solves_cons_iff_of_orient horient).1 himage).2
  -- one constructor on both sides: its arguments are equated
  | case5 equations c as d bs _ hsame ih =>
    obtain ⟨rfl, hlength⟩ := hsame
    refine ⟨fun s h => ?_, fun error h image himage => ?_⟩
    · exact (ih.1 s h).of_solves_iff (fun image => solves_cons_con hlength)
        (varsOf_zip_append_subset c as bs equations)
    · exact ih.2 error h image ((solves_cons_con hlength).1 himage)
  -- two constructors, which no image makes equal
  | case6 equations c as d bs _ hdiffer =>
    refine ⟨nofun, fun _ _ image himage => hdiffer ?_⟩
    have heq := (solves_cons.1 himage).1
    rw [Ty.bind_con, Ty.bind_con, Ty.con.injEq] at heq
    exact ⟨heq.1, by simpa using congrArg List.length heq.2⟩
  | case7 left right equations horient hcon =>
    obtain ⟨c, as, d, bs, rfl, rfl⟩ := exists_con_of_orient horient
    exact absurd HEq.rfl (hcon c as d bs horient rfl rfl)

end Unification

open Unification

/-- A substitution that unification returns is most general. -/
theorem unify_isMostGeneral {left right : Ty} {s : Subst} (h : unify left right = .ok s) :
    IsMostGeneral s [(left, right)] :=
  (solve_spec _).1 s h

/-- Types that unification rejects have no common instance under one image. -/
theorem not_unifiable_of_unify_error {left right : Ty} {error : UnifyError}
    (h : unify left right = .error error) (image : TypeVar → Ty) :
    left.bind image ≠ right.bind image :=
  fun heq => (solve_spec _).2 error h image (solves_cons.2 ⟨heq, solves_nil image⟩)

end Clausal
