import Clausal.Proofs.Term.FreeVariables
import Clausal.Proofs.Typing.Reachable

/-!
# Typings

The declarative type system. A typing gives every variable one type. A constant has any instance
of its scheme, at each of its uses another one; abstractions and applications have the rules of
the simply typed calculus.

## Main results

* `HasType.congr`: only the types of the free variables matter;
* `HasType.bind`: an instance of a typing is a typing;
* `HasType.subst`: a typing is kept by the substitution of a term for a variable of its type,
  whichever binders the substitution renames;
* `hasType_applyAll_iff`: the typings of a spine.
-/

namespace Clausal

open Function (update)

/-- `HasType r env t ty`: the term `t` has the type `ty` if each variable has the type that `env`
gives to it. -/
inductive HasType (r : Registry) : (String → Ty) → Term → Ty → Prop
  | var {env : String → Ty} (name : String) : HasType r env (.var name) (env name)
  | const {env : String → Ty} {c : Constant} {scheme : Scheme} {ty : Ty} :
      c.signature r = .ok scheme → scheme.Instance ty → HasType r env (.const c) ty
  | abs {env : String → Ty} {param : String} {body : Term} {source target : Ty} :
      HasType r (update env param source) body target →
        HasType r env (.abs param body) (.arrow source target)
  | app {env : String → Ty} {func arg : Term} {source target : Ty} :
      HasType r env func (.arrow source target) → HasType r env arg source →
        HasType r env (.app func arg) target

section

variable {r : Registry} {env : String → Ty} {ty : Ty}

@[simp] theorem hasType_var_iff {name : String} :
    HasType r env (.var name) ty ↔ ty = env name := by
  constructor
  · rintro ⟨⟩
    rfl
  · rintro rfl
    exact .var name

theorem hasType_const_iff {c : Constant} :
    HasType r env (.const c) ty ↔ ∃ scheme, c.signature r = .ok scheme ∧ scheme.Instance ty := by
  constructor
  · intro h
    cases h with
    | const hscheme hty => exact ⟨_, hscheme, hty⟩
  · rintro ⟨scheme, hscheme, hty⟩
    exact .const hscheme hty

theorem hasType_abs_iff {param : String} {body : Term} :
    HasType r env (.abs param body) ty
      ↔ ∃ source target, ty = .arrow source target
        ∧ HasType r (update env param source) body target := by
  constructor
  · intro h
    cases h with
    | abs hbody => exact ⟨_, _, rfl, hbody⟩
  · rintro ⟨source, target, rfl, hbody⟩
    exact .abs hbody

theorem hasType_app_iff {func arg : Term} :
    HasType r env (.app func arg) ty
      ↔ ∃ source, HasType r env func (.arrow source ty) ∧ HasType r env arg source := by
  constructor
  · intro h
    cases h with
    | app hfunc harg => exact ⟨_, hfunc, harg⟩
  · rintro ⟨source, hfunc, harg⟩
    exact .app hfunc harg

/-! ## Changes of the assignment -/

/-- Only the types of the free variables matter. -/
theorem HasType.congr {env' : String → Ty} {t : Term} (h : HasType r env t ty)
    (hagree : ∀ name ∈ t.free, env name = env' name) : HasType r env' t ty := by
  induction h generalizing env' with
  | var name =>
    rw [hagree name (by simp [Term.free])]
    exact .var name
  | const hscheme hty => exact .const hscheme hty
  | @abs env param body source target _ ih =>
    refine .abs (ih fun name hname => ?_)
    by_cases hparam : name = param
    · rw [hparam, Function.update_self, Function.update_self]
    · rw [Function.update_of_ne hparam, Function.update_of_ne hparam]
      exact hagree name (Term.mem_free_abs.2 ⟨hname, hparam⟩)
  | app _ _ ihfunc iharg =>
    refine .app (ihfunc fun name hname => ?_) (iharg fun name hname => ?_)
    · exact hagree name (Term.mem_free_app.2 (.inl hname))
    · exact hagree name (Term.mem_free_app.2 (.inr hname))

/-- An instance of a typing is a typing, as long as constants leave no variable free. -/
theorem HasType.bind {t : Term} (hr : r.Reachable) (h : HasType r env t ty)
    (image : TypeVar → Ty) : HasType r (fun name => (env name).bind image) t (ty.bind image) := by
  induction h with
  | var name => exact .var name
  -- no variable of the scheme is free, so the image acts on the instance alone
  | const hscheme hty =>
    have hclosed := Registry.isClosed_of_signature hr hscheme
    rw [hclosed.instance_iff] at hty
    exact .const hscheme (hclosed.instance_iff.2 (hty.trans (Ty.generalizes_bind _ image)))
  | @abs env param body source target _ ih =>
    rw [Ty.bind_con]
    refine .abs (ih.congr fun name _ => ?_)
    by_cases hparam : name = param
    · rw [hparam, Function.update_self, Function.update_self]
    · rw [Function.update_of_ne hparam, Function.update_of_ne hparam]
  | app _ _ ihfunc iharg =>
    rw [Ty.bind_con] at ihfunc
    exact .app ihfunc iharg

/-! ## Renaming and substitution -/

/-- A binder may be given a name that is not in use, with the type of the old one. -/
theorem update_eq_update_ite {name param fresh : String} (hfresh : name ≠ fresh) (source : Ty) :
    update env param source name
      = update env fresh source (if name = param then fresh else name) := by
  by_cases hparam : name = param
  · rw [if_pos hparam, hparam, Function.update_self, Function.update_self]
  · rw [if_neg hparam, Function.update_of_ne hparam, Function.update_of_ne hfresh]

/-- A renamed term has the same type if the new variable has the type of the old one. -/
theorem HasType.rename {t : Term} {env' : String → Ty} {old new : String}
    (h : HasType r env t ty)
    (hagree : ∀ name ∈ t.free, env name = env' (if name = old then new else name)) :
    HasType r env' (Term.rename old new t) ty := by
  induction t using Term.size_induction generalizing env env' ty old new with
  | step t ih =>
    cases t with
    | var name =>
      rw [hasType_var_iff] at h
      rw [Term.rename_var, hasType_var_iff, h]
      exact hagree name (by simp [Term.free])
    | const c =>
      rw [Term.rename_const]
      rw [hasType_const_iff] at h ⊢
      exact h
    | app func arg =>
      rw [hasType_app_iff] at h
      obtain ⟨source, hfunc, harg⟩ := h
      rw [Term.rename_app]
      refine .app (ih func (by simp only [Term.size]; omega) hfunc fun name hname => ?_)
        (ih arg (by simp only [Term.size]; omega) harg fun name hname => ?_)
      · exact hagree name (Term.mem_free_app.2 (.inl hname))
      · exact hagree name (Term.mem_free_app.2 (.inr hname))
    | abs param body =>
      obtain ⟨source, target, rfl, hbody⟩ := hasType_abs_iff.1 h
      rw [Term.rename_abs]
      split
      -- the binder shadows the old variable
      · next hold =>
        refine h.congr fun name hname => ?_
        have hne := (Term.mem_free_abs.1 hname).2
        rw [hagree name hname, if_neg (hold ▸ hne)]
      · next hold =>
        split
        -- the binder goes to a fresh name first, then the old variable to the new one
        · next hnew =>
          dsimp only
          generalize hfresh : Term.freshName param (body.free ++ [new, old]) = fresh
          have hnot : fresh ∉ body.free ++ [new, old] := hfresh ▸ Term.freshName_not_mem _ _
          simp only [List.mem_append, List.mem_cons, List.not_mem_nil, or_false, not_or] at hnot
          have hfreed : HasType r (update env fresh source) (Term.rename param fresh body)
              target := by
            refine ih body (by simp only [Term.size]; omega) hbody fun name hname => ?_
            exact update_eq_update_ite (ne_of_mem_of_not_mem hname hnot.1) source
          refine .abs (ih _ (by simp only [Term.size, Term.size_rename]; omega) hfreed
            fun name hname => ?_)
          rcases Term.mem_free_rename.1 hname with ⟨rfl, -⟩ | ⟨hname, hparam⟩
          · rw [if_neg hnot.2.2, Function.update_self, Function.update_self]
          · have hne : name ≠ fresh := ne_of_mem_of_not_mem hname hnot.1
            rw [Function.update_of_ne hne, Function.update_of_ne,
              hagree name (Term.mem_free_abs.2 ⟨hname, hparam⟩)]
            split
            · exact fun heq => hnot.2.1 heq.symm
            · exact hne
        · next hnew =>
          refine .abs (ih body (by simp only [Term.size]; omega) hbody fun name hname => ?_)
          by_cases hparam : name = param
          · rw [hparam, if_neg hold, Function.update_self, Function.update_self]
          · rw [Function.update_of_ne hparam, Function.update_of_ne,
              hagree name (Term.mem_free_abs.2 ⟨hname, hparam⟩)]
            split
            · exact fun heq => hnew heq.symm
            · exact hparam

/-- A typing is kept by the substitution of a term for a variable of its type. -/
theorem HasType.subst {t replacement : Term} {name : String} {source : Ty}
    (h : HasType r (update env name source) t ty)
    (hreplacement : HasType r env replacement source) :
    HasType r env (t.subst name replacement) ty := by
  rw [Term.subst]
  induction t using Term.size_induction generalizing env ty with
  | step t ih =>
    rw [Term.substWith.eq_def]
    cases t with
    | var other =>
      rw [hasType_var_iff] at h
      dsimp only
      split
      · next hname =>
        rw [h, hname, Function.update_self]
        exact hreplacement
      · next hname =>
        rw [hasType_var_iff, h, Function.update_of_ne hname]
    | const c =>
      rw [hasType_const_iff] at h
      exact hasType_const_iff.2 h
    | app func arg =>
      obtain ⟨domain, hfunc, harg⟩ := hasType_app_iff.1 h
      exact .app (ih func (by simp only [Term.size]; omega) hfunc hreplacement)
        (ih arg (by simp only [Term.size]; omega) harg hreplacement)
    | abs param body =>
      obtain ⟨domain, target, rfl, hbody⟩ := hasType_abs_iff.1 h
      dsimp only
      split
      -- the binder shadows the variable
      · next hparam =>
        refine h.congr fun other hother => ?_
        rw [Function.update_of_ne (hparam ▸ (Term.mem_free_abs.1 hother).2)]
      · next hparam =>
        split
        -- the binder would capture a variable of the replacement, and is renamed first
        · next hcaptured =>
          generalize hfresh :
            Term.freshName param (body.free ++ replacement.free ++ [name]) = fresh
          have hnot : fresh ∉ body.free ++ replacement.free ++ [name] :=
            hfresh ▸ Term.freshName_not_mem _ _
          simp only [List.mem_append, List.mem_singleton, not_or] at hnot
          obtain ⟨⟨hbodyFree, hreplacementFree⟩, hname⟩ := hnot
          refine .abs (ih _ (by simp only [Term.size, Term.size_rename]; omega)
            (hbody.rename fun other hother => ?_) (hreplacement.congr fun other hother => ?_))
          · rw [Function.update_comm hname]
            exact update_eq_update_ite (ne_of_mem_of_not_mem hother hbodyFree) domain
          · have hne : other ≠ fresh := ne_of_mem_of_not_mem hother hreplacementFree
            rw [Function.update_of_ne hne]
        · next hfree =>
          refine .abs (ih body (by simp only [Term.size]; omega) ?_
            (hreplacement.congr fun other hother => ?_))
          · rwa [Function.update_comm hparam]
          · rw [Function.update_of_ne]
            rintro rfl
            exact hfree (by simpa using hother)

/-! ## Spines -/

/-- A spine is typed by a type of its head as a function of the types of its arguments. -/
theorem hasType_applyAll_iff {func : Term} {args : List Term} :
    HasType r env (func.applyAll args) ty
      ↔ ∃ params, HasType r env func (Ty.arrows params ty)
        ∧ List.Forall₂ (HasType r env) args params := by
  induction args generalizing func with
  | nil =>
    constructor
    · exact fun h => ⟨[], h, .nil⟩
    · rintro ⟨_, h, ⟨⟩⟩
      exact h
  | cons arg args ih =>
    rw [Term.applyAll_cons, ih]
    constructor
    · rintro ⟨params, h, hargs⟩
      obtain ⟨param, hfunc, harg⟩ := hasType_app_iff.1 h
      exact ⟨param :: params, hfunc, .cons harg hargs⟩
    · rintro ⟨_, hfunc, _ | ⟨harg, hargs⟩⟩
      exact ⟨_, .app hfunc harg, hargs⟩

end

end Clausal
