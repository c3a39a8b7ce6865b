import Clausal.Proofs.Typing.MostGeneral

/-!
# Unifiers

Unification of two types returns their most general unifier, or they have none. A unifier is a
finite substitution here: what is said of images in `Unification.IsMostGeneral` is said of the
bindings that the solver returns.

Equations are solved one after the other, each under the solution of those before it. So two types
of functions are unified in their sources first, and then in their targets under what was found.

## Main results

* `Unification.solve_append`: later equations are solved under the solution of the earlier ones;
* `Unification.mentionsOnly_solve`: a solution has no variables but those of its equations;
* `unify_spec`: unification returns the most general unifier, or an error if there is none.
-/

namespace Clausal

/-! ## Bindings -/

namespace Subst

variable {later earlier s : Subst} {vars : List TypeVar}

/-- A substitution that binds only variables of a list, to types over these. -/
def MentionsOnly (s : Subst) (vars : List TypeVar) : Prop :=
  ∀ v t, (v, t) ∈ s.bindings → v ∈ vars ∧ t.vars ⊆ vars

theorem MentionsOnly.mono {vars' : List TypeVar} (h : s.MentionsOnly vars)
    (hsubset : vars ⊆ vars') : s.MentionsOnly vars' := fun v t hmem =>
  ⟨hsubset (h v t hmem).1, List.Subset.trans (h v t hmem).2 hsubset⟩

/-- The image of a variable under a substitution is bound to it, or is the variable. -/
theorem image_cases (s : Subst) (v : TypeVar) :
    (v, s.image v) ∈ s.bindings ∨ s.image v = .var v := by
  cases hfind : s.bindings.lookup v with
  | none => exact .inr (by rw [image, find?, hfind]; rfl)
  | some t =>
    obtain ⟨before, after, hbindings, -⟩ := List.lookup_eq_some_iff.1 hfind
    refine .inl ?_
    rw [image, find?, hfind, hbindings]
    exact List.mem_append_right _ List.mem_cons_self

/-- Types over a list of variables stay types over it. -/
theorem MentionsOnly.vars_apply_subset (h : s.MentionsOnly vars) {t : Ty} (ht : t.vars ⊆ vars) :
    (s.apply t).vars ⊆ vars := by
  intro v hv
  obtain ⟨w, hw, hv⟩ := mem_vars_apply.1 hv
  rcases s.image_cases w with hmem | hself
  · exact (h w _ hmem).2 hv
  · rw [hself, Ty.mem_vars_var] at hv
    exact hv ▸ ht hw

theorem MentionsOnly.compose (hlater : later.MentionsOnly vars)
    (hearlier : earlier.MentionsOnly vars) : (later.compose earlier).MentionsOnly vars := by
  intro v t hmem
  rcases List.mem_append.1 hmem with hmem | hmem
  · obtain ⟨⟨w, u⟩, hbinding, heq⟩ := List.mem_map.1 hmem
    obtain ⟨rfl, rfl⟩ := Prod.mk.inj heq
    exact ⟨(hearlier _ u hbinding).1, hlater.vars_apply_subset (hearlier _ u hbinding).2⟩
  · exact hlater v t (List.mem_filter.1 hmem).1

@[simp] theorem compose_empty (s : Subst) : s.compose .empty = s := by
  simp [compose, empty, find?]

theorem find?_compose (later earlier : Subst) (v : TypeVar) :
    (later.compose earlier).find? v
      = ((earlier.find? v).map later.apply).or (later.find? v) := by
  rw [find?, compose, List.lookup_append, lookup_map_apply, ← find?]
  cases hv : earlier.find? v with
  | some t => rfl
  | none =>
    rw [lookup_filter fun _ => Option.isNone_iff_eq_none.2 hv]
    rfl

/-- Of three compositions in a row, either may be made first. -/
theorem compose_assoc (latest later earlier : Subst) :
    (latest.compose later).compose earlier = latest.compose (later.compose earlier) := by
  have hkept (v : TypeVar) : ((later.compose earlier).find? v).isNone
      = ((earlier.find? v).isNone && (later.find? v).isNone) := by
    rw [find?_compose]
    cases earlier.find? v <;> rfl
  simp only [compose, mk.injEq, List.map_append, List.map_map, List.filter_append,
    List.filter_filter, List.filter_map, List.append_assoc]
  refine congrArg₂ _ (List.map_congr_left fun binding _ => ?_) (congrArg₂ _ rfl ?_)
  · exact congrArg (binding.1, ·) (apply_compose latest later binding.2)
  · exact List.filter_congr fun binding _ => (hkept binding.1).symm

end Subst

/-! ## Solutions of equations -/

namespace Unification

theorem applyTo_empty (equations : Equations) : applyTo .empty equations = equations := by
  simp [applyTo]

theorem applyTo_compose (later earlier : Subst) (equations : Equations) :
    applyTo (later.compose earlier) equations = applyTo later (applyTo earlier equations) := by
  simp only [applyTo, List.map_map, Subst.apply_compose]
  rfl

theorem applyTo_append (s : Subst) (equations equations' : Equations) :
    applyTo s (equations ++ equations') = applyTo s equations ++ applyTo s equations' :=
  List.map_append

/-- An equation that determines a variable is solved by replacing it in the others. -/
theorem solve_cons_of_orient {left right t : Ty} {v : TypeVar}
    (h : orient? left right = some (v, t)) (equations : Equations) :
    solve ((left, right) :: equations) = if t.asVar? = some v then solve equations
      else if v ∈ t.vars then .error (.occursCheck v t)
      else (solve (applyTo (.single v t) equations)).map (·.compose (.single v t)) := by
  rw [solve]
  split
  · next heq =>
    obtain ⟨rfl, rfl⟩ := Prod.mk.inj (Option.some.inj (h.symm.trans heq))
    rfl
  · next heq =>
    rw [h] at heq
    contradiction

/-- An equation between types that constructors build is one between their arguments. -/
theorem solve_cons_con (c d : TyCon) (as bs : List Ty) (equations : Equations) :
    solve ((.con c as, .con d bs) :: equations) =
      if c = d ∧ as.length = bs.length then solve (as.zip bs ++ equations)
      else .error (.mismatch (.con c as) (.con d bs)) := by
  rw [solve]
  rfl

/-- Later equations are solved under the solution of the earlier ones. -/
theorem solve_append (equations equations' : Equations) :
    solve (equations ++ equations') = do
      let s ← solve equations
      let s' ← solve (applyTo s equations')
      return s'.compose s := by
  fun_induction solve equations generalizing equations' with
  | case1 =>
    change _ = (solve (applyTo .empty equations')).bind fun s' => .ok (s'.compose .empty)
    simp only [List.nil_append, applyTo_empty, Subst.compose_empty]
    cases solve equations' <;> rfl
  | case2 left right equations v t horient hvar ih =>
    rw [List.cons_append, solve_cons_of_orient horient, if_pos hvar, ih]
  | case3 left right equations v t horient hvar hoccurs =>
    rw [List.cons_append, solve_cons_of_orient horient, if_neg hvar, if_pos hoccurs]
    rfl
  | case4 left right equations v t horient hvar hoccurs ih =>
    rw [List.cons_append, solve_cons_of_orient horient, if_neg hvar, if_neg hoccurs, applyTo_append,
      ih]
    cases solve (applyTo (.single v t) equations) with
    | error error => rfl
    | ok s =>
      -- both ways of going on solve the same equations under the composition
      change Except.map _ ((solve (applyTo s (applyTo (.single v t) equations'))).bind _)
        = (solve (applyTo (s.compose (.single v t)) equations')).bind _
      rw [applyTo_compose]
      cases solve (applyTo s (applyTo (.single v t) equations')) with
      | error error => rfl
      | ok s' => exact congrArg Except.ok (Subst.compose_assoc s' s (.single v t))
  | case5 equations c as d bs horient hsame ih =>
    rw [List.cons_append, solve_cons_con, if_pos hsame, ← List.append_assoc, ih]
  | case6 equations c as d bs horient hdiffer =>
    rw [List.cons_append, solve_cons_con, if_neg hdiffer]
    rfl
  | case7 left right equations horient hcon =>
    obtain ⟨c, as, d, bs, rfl, rfl⟩ := exists_con_of_orient horient
    exact absurd HEq.rfl (hcon c as d bs horient rfl rfl)

/-- A solution has no variables but those of its equations. -/
theorem mentionsOnly_solve {equations : Equations} {s : Subst} (h : solve equations = .ok s) :
    s.MentionsOnly (varsOf equations) := by
  fun_induction solve equations generalizing s with
  | case1 =>
    obtain rfl := Except.ok.inj h
    exact fun _ _ hmem => absurd hmem List.not_mem_nil
  | case2 left right equations v t _ _ ih =>
    refine (ih h).mono ?_
    rw [varsOf_cons]
    exact List.subset_append_right _ _
  | case3 => contradiction
  | case4 left right equations v t horient _ _ ih =>
    cases hs' : solve (applyTo (.single v t) equations) with
    | error error =>
      rw [hs'] at h
      contradiction
    | ok s' =>
    rw [hs'] at h
    obtain rfl := Except.ok.inj h
    refine ((ih hs').mono (varsOf_applyTo_subset horient)).compose fun w u hmem => ?_
    obtain ⟨rfl, rfl⟩ := Prod.mk.inj (List.mem_singleton.1 hmem)
    exact ⟨mem_varsOf_of_orient horient (.inl rfl),
      fun x hx => mem_varsOf_of_orient horient (.inr hx)⟩
  | case5 equations c as d bs _ hsame ih =>
    obtain ⟨rfl, -⟩ := hsame
    exact (ih h).mono (varsOf_zip_append_subset c as bs equations)
  | case6 => contradiction
  | case7 => contradiction

end Unification

open Unification

/-- Functions are unified in their sources and then, under what was found, in their targets. -/
theorem unify_arrow (source target source' target' : Ty) :
    unify (.arrow source target) (.arrow source' target') = do
      let s ← unify source source'
      let s' ← unify (s.apply target) (s.apply target')
      return s'.compose s := by
  rw [unify, solve_cons_con, if_pos ⟨rfl, rfl⟩]
  exact solve_append [(source, source')] [(target, target')]

/-- A substitution that makes two types equal, through which every other one factors. -/
structure IsMostGeneralUnifier (s : Subst) (left right : Ty) : Prop where
  /-- It makes the types equal. -/
  unifies : s.apply left = s.apply right
  /-- To apply it again changes nothing. -/
  idempotent : ∀ t, s.apply (s.apply t) = s.apply t
  /-- It is about the variables of the two types and brings in no others. -/
  mentionsOnly : s.MentionsOnly (left.vars ++ right.vars)
  /-- A substitution that makes the types equal is the same before and after it. -/
  absorbed : ∀ s' : Subst, s'.apply left = s'.apply right →
    ∀ t, (s'.compose s).apply t = s'.apply t

/-- Unification returns a most general unifier, or an error just if there is no unifier. -/
theorem unify_spec (left right : Ty) :
    (∀ s, unify left right = .ok s → IsMostGeneralUnifier s left right)
      ∧ ((∃ error, unify left right = .error error)
        ↔ ¬∃ s : Subst, s.apply left = s.apply right) := by
  have hvars : varsOf [(left, right)] = left.vars ++ right.vars := by simp [varsOf]
  have hgeneral {s : Subst} (h : unify left right = .ok s) : IsMostGeneralUnifier s left right := by
    have hmost := unify_isMostGeneral h
    have habsorbed {s' : Subst} (hs' : s'.apply left = s'.apply right) (t : Ty) :
        (s.apply t).bind s'.image = s'.apply t := by
      rw [Subst.apply, Ty.bind_bind]
      exact Ty.bind_congr fun v _ =>
        hmost.absorbed s'.image (solves_cons.2 ⟨hs', solves_nil _⟩) v
    have hunifies : s.apply left = s.apply right := (solves_cons.1 hmost.solves).1
    exact ⟨hunifies, habsorbed hunifies, hvars ▸ mentionsOnly_solve h,
      fun s' hs' t => (Subst.apply_compose s' s t).trans (habsorbed hs' t)⟩
  refine ⟨fun s => hgeneral, ?_⟩
  cases hunify : unify left right with
  | ok s => exact iff_of_false (by simp) (not_not_intro ⟨s, (hgeneral hunify).unifies⟩)
  | error error =>
    refine iff_of_true ⟨error, rfl⟩ ?_
    rintro ⟨s, hs⟩
    exact not_unifiable_of_unify_error hunify s.image hs

/-- The components of two tuples determine each other's variables, one under what the other says:
the first variable is a list of integers, so the second is too, and the third is a list of these. -/
theorem unify_spec_lists :
    let list (t : Ty) : Ty := .data "List" [t]
    let left : Ty := .tuple [.numbered 0, .numbered 2, .arrow (.numbered 1) (.numbered 1)]
    let right : Ty := .tuple [list .int, list (.numbered 1), .arrow (.numbered 0) (.numbered 1)]
    let s : Subst := ⟨[(.numbered 0, list .int), (.numbered 2, list (list .int)),
      (.numbered 1, list .int)]⟩
    unify left right = .ok s ∧ IsMostGeneralUnifier s left right := by
  intro list left right s
  have hunify : unify left right = .ok s := by cbv
  exact ⟨hunify, (unify_spec left right).1 s hunify⟩

end Clausal
