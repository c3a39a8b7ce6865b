import Clausal.Proofs.Reduction.Contraction

/-!
# Equality up to the names of bound variables

Two terms are equal up to the names of bound variables if one becomes the other when binders get
other names. Their De Bruijn forms, which forget even the stems of those names, are then one.

## Main results

* `Term.alpha_iff`: terms are equal up to names if and only if they have one De Bruijn form;
* `Term.alpha_of_read_eq`: terms that are read the same are equal up to names.
-/

namespace Clausal

namespace Nameless

variable {t u : Nameless}

/-- The term without the stems of the names that its abstractions bind. -/
def bare : Nameless → Nameless
  | bound i => bound i
  | free name => free name
  | const c => const c
  | abs _ body => abs "" body.bare
  | app func arg => app func.bare arg.bare

theorem bare_rename (t : Nameless) (ξ : Nat → Nat) : (t.rename ξ).bare = t.bare.rename ξ := by
  induction t generalizing ξ with
  | abs stem body ih => rw [rename, bare, ih, bare, rename]
  | app func arg ihf iha => rw [rename, bare, ihf, iha, bare, rename]
  | bound _ | free _ | const _ => rfl

theorem bare_shift (t : Nameless) : t.shift.bare = t.bare.shift :=
  bare_rename t Nat.succ

theorem closedAt_bare {depth : Nat} : t.bare.ClosedAt depth ↔ t.ClosedAt depth := by
  induction t generalizing depth with
  | abs stem body ih => exact ih
  | app func arg ihf iha => exact and_congr ihf iha
  | bound _ | free _ | const _ => exact Iff.rfl

/-! ## Terms of one bare form -/

theorem eq_bound_of_bare {i : Nat} (h : t.bare = bound i) : t = bound i := by
  cases t with
  | bound _ => exact h
  | free _ | const _ | abs _ _ | app _ _ => contradiction

theorem eq_free_of_bare {name : String} (h : t.bare = free name) : t = free name := by
  cases t with
  | free _ => exact h
  | bound _ | const _ | abs _ _ | app _ _ => contradiction

theorem eq_const_of_bare {c : Constant} (h : t.bare = const c) : t = const c := by
  cases t with
  | const _ => exact h
  | bound _ | free _ | abs _ _ | app _ _ => contradiction

theorem exists_abs_of_bare {stem : String} {body : Nameless} (h : t.bare = abs stem body) :
    ∃ stem' body', t = abs stem' body' ∧ body'.bare = body := by
  cases t with
  | abs stem' body' => exact ⟨stem', body', rfl, (abs.inj h).2⟩
  | bound _ | free _ | const _ | app _ _ => contradiction

theorem exists_app_of_bare {func arg : Nameless} (h : t.bare = app func arg) :
    ∃ func' arg', t = app func' arg' ∧ func'.bare = func ∧ arg'.bare = arg := by
  cases t with
  | app func' arg' => exact ⟨func', arg', rfl, (app.inj h).1, (app.inj h).2⟩
  | bound _ | free _ | const _ | abs _ _ => contradiction

end Nameless

/-- A variable has no stem to forget. -/
theorem Environment.Leaves.eq_of_bare {env : Environment} (h : env.Leaves) {t : Nameless}
    {name : String} (ht : t.bare = (env name).bare) : t = env name := by
  rcases h.leaf name with ⟨i, hi⟩ | ⟨other, hother⟩
  · rw [hi] at ht ⊢
    exact Nameless.eq_bound_of_bare ht
  · rw [hother] at ht ⊢
    exact Nameless.eq_free_of_bare ht

namespace Term

variable {env : Environment} {t u : Term}

/-- Equality up to the names of bound variables: a binder may get any name that is not free in the
body. -/
inductive Alpha : Term → Term → Prop
  | rename {param new : String} {body : Term} (h : new ∉ body.free) :
      Alpha (.abs param body) (.abs new (rename param new body))
  | refl (t : Term) : Alpha t t
  | symm {t u : Term} : Alpha t u → Alpha u t
  | trans {t u v : Term} : Alpha t u → Alpha u v → Alpha t v
  | abs (param : String) {body body' : Term} : Alpha body body' →
      Alpha (.abs param body) (.abs param body')
  | app {func func' arg arg' : Term} : Alpha func func' → Alpha arg arg' →
      Alpha (.app func arg) (.app func' arg')

/-- The De Bruijn form of a term: numbers for the variables that it binds, names for its free
variables, and nothing else of its names. -/
def deBruijn (t : Term) : Nameless := t.nameless.bare

/-- A change of bound names is not seen by a reading that forgets stems. -/
theorem Alpha.bare_read (h : Alpha t u) (env : Environment) :
    (t.read env).bare = (u.read env).bare := by
  induction h generalizing env with
  | rename hnew =>
    rw [read, read, Nameless.bare, Nameless.bare, read_rename_bind hnew]
  | refl _ => rfl
  | symm _ ih => exact (ih env).symm
  | trans _ _ ih₁ ih₂ => exact (ih₁ env).trans (ih₂ env)
  | abs param _ ih => rw [read, read, Nameless.bare, Nameless.bare, ih]
  | app _ _ ihf iha => rw [read, read, Nameless.bare, Nameless.bare, ihf, iha]

/-- Terms whose readings in leaves differ in stems only are equal up to the names of bound
variables. -/
theorem alpha_of_bare_read_eq (h : env.Leaves) (hread : (t.read env).bare = (u.read env).bare) :
    Alpha t u := by
  induction t using size_induction generalizing u env with
  | step t ih =>
    match t with
    | .var name =>
      have hu : u.read env = env name := h.eq_of_bare hread.symm
      rw [eq_var_of_read h hu]
      exact .refl _
    | .const c =>
      have hu : u.read env = .const c := Nameless.eq_const_of_bare hread.symm
      rw [eq_const_of_read h hu]
      exact .refl _
    | .abs param body =>
      obtain ⟨stem', body₀, hu, hbare⟩ := Nameless.exists_abs_of_bare hread.symm
      obtain ⟨param', body', rfl, rfl⟩ := exists_abs_of_read h hu
      -- both binders get a name that is in neither body
      obtain ⟨new, hnew⟩ : ∃ new, new ∉ body.free ++ body'.free :=
        ⟨_, freshName_not_mem param _⟩
      rw [List.mem_append, not_or] at hnew
      have hrenamed : Alpha (rename param new body) (rename param' new body') := by
        refine ih _ (by simp only [size_rename, size]; omega) (h.bind new) ?_
        rw [read_rename_bind hnew.1, read_rename_bind hnew.2, hbare]
      exact (Alpha.rename hnew.1).trans ((Alpha.abs new hrenamed).trans (.symm (.rename hnew.2)))
    | .app func arg =>
      obtain ⟨func₀, arg₀, hu, hfunc, harg⟩ := Nameless.exists_app_of_bare hread.symm
      obtain ⟨func', arg', rfl, rfl, rfl⟩ := exists_app_of_read h hu
      exact .app (ih func (by simp only [size]; omega) h hfunc.symm)
        (ih arg (by simp only [size]; omega) h harg.symm)

/-- Terms that are read the same in leaves are equal up to the names of bound variables. -/
theorem alpha_of_read_eq (h : env.Leaves) (hread : t.read env = u.read env) : Alpha t u :=
  alpha_of_bare_read_eq h (congrArg Nameless.bare hread)

/-- Terms are equal up to the names of bound variables if and only if they have one De Bruijn
form. -/
theorem alpha_iff : Alpha t u ↔ t.deBruijn = u.deBruijn :=
  ⟨fun h => h.bare_read .free, alpha_of_bare_read_eq .free⟩

end Term

end Clausal
