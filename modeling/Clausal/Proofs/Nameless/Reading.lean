import Clausal.Proofs.Nameless.Term
import Clausal.Proofs.Term.FreeVariables
import Mathlib.Logic.Function.Basic

/-!
# Reading a named term

A term is read in an environment that says what its free variables stand for. Substitution in the
term, which renames binders where they would capture a variable, is nothing but a change of the
environment.

## Main results

* `Term.read_subst`: substitution in a term is a change of the environment;
* `Term.subst_read`: substitution in what was read is one in the environment;
* `Term.closed_read_iff`: a term is closed if what is read in leaves is.
-/

namespace Clausal

open Term (stem freshName)

/-- What each variable stands for. -/
abbrev Environment := String → Nameless

namespace Environment

variable {env : Environment} {x y : String}

/-- The environment below a binder. -/
def bind (x : String) (env : Environment) : Environment :=
  Function.update (fun y => (env y).shift) x (.bound 0)

@[simp] theorem bind_self : env.bind x x = .bound 0 :=
  Function.update_self x _ _

theorem bind_of_ne (h : y ≠ x) : env.bind x y = (env y).shift :=
  Function.update_of_ne h _ _

/-- A change of the environment, below a binder of another variable. -/
theorem bind_update (h : x ≠ y) (u : Nameless) :
    bind x (Function.update env y u) = Function.update (env.bind x) y u.shift := by
  funext name
  by_cases hx : name = x
  · rw [hx, bind_self, Function.update_of_ne h, bind_self]
  · rw [bind_of_ne hx]
    by_cases hy : name = y
    · rw [hy, Function.update_self, Function.update_self]
    · rw [Function.update_of_ne hy, Function.update_of_ne hy, bind_of_ne hx]

/-- Below a binder, it does not matter which fresh name the variable has. -/
theorem update_bind_of_ne {fresh name : String} (h : name ≠ fresh) :
    Function.update (env.bind fresh) x (.bound 0) name = env.bind x name := by
  by_cases hx : name = x
  · rw [hx, Function.update_self, bind_self]
  · rw [Function.update_of_ne hx, bind_of_ne h, bind_of_ne hx]

/-- A substitution in an environment, below a binder. -/
theorem bind_subst (env : Environment) (x : String) (σ : Nat → Nameless) :
    (fun y => (env.bind x y).subst (Nameless.under σ)) = bind x fun y => (env y).subst σ := by
  funext y
  by_cases h : y = x
  · rw [h, bind_self, bind_self]
    rfl
  · rw [bind_of_ne h, bind_of_ne h, Nameless.shift_subst, Nameless.shift, Nameless.rename_subst]
    rfl

/-- Filling the binder puts the argument into the environment. -/
theorem bind_instantiate (env : Environment) (x : String) (arg : Nameless) :
    (fun y => (env.bind x y).instantiate arg) = Function.update env x arg := by
  funext y
  by_cases h : y = x
  · rw [h, bind_self, Function.update_self]
    rfl
  · rw [bind_of_ne h, Function.update_of_ne h, Nameless.instantiate_shift]

end Environment

namespace Term

variable {env env' : Environment} {t u : Term}

/-- The term with numbers for the variables that it binds. -/
def read (env : Environment) : Term → Nameless
  | .var name => env name
  | .const c => .const c
  | .abs param body => .abs (stem param) (body.read (env.bind param))
  | .app func arg => .app (func.read env) (arg.read env)

/-- The term with numbers for the variables that it binds, and names for the others. -/
def nameless (t : Term) : Nameless := t.read .free

/-- Only the free variables of a term are looked up. -/
theorem read_congr (h : ∀ name ∈ t.free, env name = env' name) : t.read env = t.read env' := by
  induction t generalizing env env' with
  | var name => exact h name (List.mem_singleton_self name)
  | const _ => rfl
  | abs param body ih =>
    refine congrArg (Nameless.abs _) (ih fun name hname => ?_)
    by_cases hparam : name = param
    · rw [hparam, Environment.bind_self, Environment.bind_self]
    · rw [Environment.bind_of_ne hparam, Environment.bind_of_ne hparam,
        h name (mem_free_abs.2 ⟨hname, hparam⟩)]
  | app func arg ihf iha =>
    rw [read, read, ihf fun name hname => h name (mem_free_app.2 (.inl hname)),
      iha fun name hname => h name (mem_free_app.2 (.inr hname))]

theorem read_update_of_not_mem {x : String} (h : x ∉ t.free) (u : Nameless) :
    t.read (Function.update env x u) = t.read env :=
  read_congr fun _ hname => Function.update_of_ne (ne_of_mem_of_not_mem hname h) _ _

/-- Substitution in what was read is one in the environment. -/
theorem subst_read (t : Term) (env : Environment) (σ : Nat → Nameless) :
    (t.read env).subst σ = t.read fun y => (env y).subst σ := by
  induction t generalizing env σ with
  | var _ | const _ => rfl
  | abs param body ih => rw [read, Nameless.subst, ih, Environment.bind_subst, read]
  | app func arg ihf iha => rw [read, Nameless.subst, ihf, iha, read]

theorem shift_read (t : Term) (env : Environment) :
    (t.read env).shift = t.read fun y => (env y).shift := by
  simp only [Nameless.shift, Nameless.rename_eq_subst]
  exact subst_read t env _

/-- Filling a body that was read below a binder puts the argument into the environment. -/
theorem instantiate_read (body : Term) (env : Environment) (x : String) (arg : Nameless) :
    (body.read (env.bind x)).instantiate arg = body.read (Function.update env x arg) := by
  rw [← Environment.bind_instantiate]
  exact subst_read body _ _

/-- A change of name is a change of the environment. -/
theorem read_rename (t : Term) (old new : String) (env : Environment) :
    (rename old new t).read env = t.read (Function.update env old (env new)) := by
  induction t using size_induction generalizing old new env with
  | step t ih =>
    cases t with
    | var name =>
      rw [rename_var, read, read]
      by_cases h : name = old
      · rw [if_pos h, h, Function.update_self]
      · rw [if_neg h, Function.update_of_ne h]
    | const _ => rw [rename_const, read, read]
    | app func arg =>
      rw [rename_app, read, read, ih func (by simp only [size]; omega),
        ih arg (by simp only [size]; omega)]
    | abs param body =>
      have ih (body' : Term) (h : body'.size ≤ body.size) (old new : String) (env : Environment) :=
        ih body' (by simp only [size]; omega) old new env
      rw [rename_abs]
      split
      -- the binder shadows the old variable
      · next hold =>
        refine (read_update_of_not_mem ?_ _).symm
        simp [hold]
      · next hold =>
        split
        -- the binder would capture the new variable, and is renamed first
        · next hnew =>
          dsimp only
          generalize hfresh : freshName param (body.free ++ [new, old]) = fresh
          have hnot : fresh ∉ body.free ++ [new, old] := hfresh ▸ freshName_not_mem _ _
          simp only [List.mem_append, List.mem_cons, List.not_mem_nil, or_false, not_or] at hnot
          obtain ⟨hbody, hfnew, hfold⟩ := hnot
          rw [read, read, ih _ (size_rename _ _ _).le, ih _ (Nat.le_refl _), ← hfresh,
            stem_freshName, hfresh, Environment.bind_of_ne (Ne.symm hfnew),
            ← Environment.bind_update hfold, Environment.bind_self]
          exact congrArg (Nameless.abs _) (read_congr fun name hname =>
            Environment.update_bind_of_ne fun heq => hbody (heq ▸ hname))
        · next hnew =>
          rw [read, read, ih _ (Nat.le_refl _), Environment.bind_of_ne (Ne.symm hnew),
            Environment.bind_update hold]

/-- A body is read the same below a binder that was renamed. -/
theorem read_rename_bind {param new : String} {body : Term} (h : new ∉ body.free)
    (env : Environment) :
    (rename param new body).read (env.bind new) = body.read (env.bind param) := by
  rw [read_rename, Environment.bind_self]
  exact read_congr fun name hname =>
    Environment.update_bind_of_ne fun heq => h (heq ▸ hname)

/-- Substitution in a term is a change of the environment. -/
theorem read_subst (t : Term) (x : String) (u : Term) (env : Environment) :
    (t.subst x u).read env = t.read (Function.update env x (u.read env)) := by
  rw [subst]
  induction t using size_induction generalizing env with
  | step t ih =>
    rw [substWith.eq_def]
    cases t with
    | var name =>
      dsimp only
      by_cases h : name = x
      · rw [if_pos h, h, read, Function.update_self]
      · rw [if_neg h, read, read, Function.update_of_ne h]
    | const _ => rfl
    | app func arg =>
      rw [read, read, ih func (by simp only [size]; omega), ih arg (by simp only [size]; omega)]
    | abs param body =>
      have ih (body' : Term) (h : body'.size ≤ body.size) (env : Environment) :=
        ih body' (by simp only [size]; omega) env
      dsimp only
      split
      -- the binder shadows the variable
      · next hx =>
        refine (read_update_of_not_mem ?_ _).symm
        simp [hx]
      · next hx =>
        -- read below a binder that is not free in it, the replacement is the same
        have hbind {y : String} (hy : y ∉ u.free) : u.read (env.bind y) = (u.read env).shift := by
          rw [shift_read]
          exact read_congr fun name hname =>
            Environment.bind_of_ne fun heq => hy (heq ▸ hname)
        split
        -- the binder would capture a variable of the replacement, and is renamed first
        · next hcapture =>
          generalize hfresh : freshName param (body.free ++ u.free ++ [x]) = fresh
          have hnot : fresh ∉ body.free ++ u.free ++ [x] := hfresh ▸ freshName_not_mem _ _
          simp only [List.mem_append, List.mem_singleton, not_or] at hnot
          obtain ⟨⟨hbody, hu⟩, hfx⟩ := hnot
          rw [read, read, ih _ (size_rename _ _ _).le, read_rename, hbind hu, ← hfresh,
            stem_freshName, hfresh, ← Environment.bind_update hfx, Environment.bind_self]
          exact congrArg (Nameless.abs _) (read_congr fun name hname =>
            Environment.update_bind_of_ne fun heq => hbody (heq ▸ hname))
        · next hcapture =>
          rw [Bool.not_eq_true, List.contains_eq_mem, decide_eq_false_iff_not] at hcapture
          rw [read, read, ih _ (Nat.le_refl _), hbind hcapture, Environment.bind_update hx]

/-! ## Closed terms -/

/-- What is read from closed terms is closed. -/
theorem closedAt_read {depth : Nat} (h : ∀ name ∈ t.free, (env name).ClosedAt depth) :
    (t.read env).ClosedAt depth := by
  induction t generalizing env depth with
  | var name => exact h name (List.mem_singleton_self name)
  | const _ => trivial
  | abs param body ih =>
    refine ih fun name hname => ?_
    by_cases hparam : name = param
    · rw [hparam, Environment.bind_self]
      exact Nat.succ_pos depth
    · rw [Environment.bind_of_ne hparam, Nameless.closedAt_shift]
      exact h name (mem_free_abs.2 ⟨hname, hparam⟩)
  | app func arg ihf iha =>
    exact ⟨ihf fun name hname => h name (mem_free_app.2 (.inl hname)),
      iha fun name hname => h name (mem_free_app.2 (.inr hname))⟩

/-- The variables of a term stand for closed terms if what is read is closed. -/
theorem closedAt_of_read {depth : Nat} (h : (t.read env).ClosedAt depth) :
    ∀ name ∈ t.free, (env name).ClosedAt depth := by
  induction t generalizing env depth with
  | var name =>
    intro other hother
    rwa [List.mem_singleton.1 hother]
  | const _ => exact nofun
  | abs param body ih =>
    intro name hname
    obtain ⟨hbody, hparam⟩ := mem_free_abs.1 hname
    have := ih h name hbody
    rwa [Environment.bind_of_ne hparam, Nameless.closedAt_shift] at this
  | app func arg ihf iha =>
    intro name hname
    rcases mem_free_app.1 hname with hname | hname
    · exact ihf h.1 name hname
    · exact iha h.2 name hname

/-- What is read from a closed term is closed, in every environment. -/
theorem closed_read (h : t.isClosed = true) (env : Environment) : (t.read env).Closed :=
  closedAt_read fun name hname => absurd hname (isClosed_iff.1 h name)

/-- A closed term reads the same in every environment. -/
theorem read_eq_nameless (h : t.isClosed = true) (env : Environment) : t.read env = t.nameless :=
  read_congr fun name hname => absurd hname (isClosed_iff.1 h name)

/-! ## Spines -/

theorem read_applyAll (func : Term) (args : List Term) (env : Environment) :
    (func.applyAll args).read env = (func.read env).applyAll (args.map (read env)) := by
  induction args generalizing func with
  | nil => rfl
  | cons arg args ih => exact ih _

end Term

/-! ## Environments of leaves -/

/-- Whether every variable stands for a variable. -/
structure Environment.Leaves (env : Environment) : Prop where
  /-- Every variable stands for a variable. -/
  leaf (name : String) : (∃ i, env name = .bound i) ∨ ∃ other, env name = .free other
  /-- Different variables stand for different variables. -/
  injective : Function.Injective env

namespace Environment.Leaves

variable {env : Environment} {t : Term}

theorem free : Environment.Leaves .free :=
  ⟨fun name => .inr ⟨name, rfl⟩, fun _ _ h => Nameless.free.inj h⟩

theorem bind (h : env.Leaves) (x : String) : (env.bind x).Leaves where
  leaf name := by
    by_cases hx : name = x
    · exact .inl ⟨0, by rw [hx, bind_self]⟩
    · rw [bind_of_ne hx]
      rcases h.leaf name with ⟨i, hi⟩ | ⟨other, hother⟩
      · exact .inl ⟨i + 1, by rw [hi]; rfl⟩
      · exact .inr ⟨other, by rw [hother]; rfl⟩
  injective := by
    have hshift (name : String) : (env name).shift ≠ .bound 0 := by
      rcases h.leaf name with ⟨i, hi⟩ | ⟨other, hother⟩
      · rw [hi]
        exact fun h0 => Nat.succ_ne_zero i (Nameless.bound.inj h0)
      · rw [hother]
        exact Nameless.noConfusion
    intro a b hab
    by_cases ha : a = x <;> by_cases hb : b = x
    · rw [ha, hb]
    · rw [ha, bind_self, bind_of_ne hb] at hab
      exact absurd hab.symm (hshift b)
    · rw [hb, bind_self, bind_of_ne ha] at hab
      exact absurd hab (hshift a)
    · rw [bind_of_ne ha, bind_of_ne hb] at hab
      refine h.injective ?_
      -- a variable is read off the one that it is shifted to
      rcases h.leaf a with ⟨i, hi⟩ | ⟨i, hi⟩ <;> rcases h.leaf b with ⟨j, hj⟩ | ⟨j, hj⟩ <;>
        rw [hi, hj] at hab ⊢
      · rw [Nat.succ.inj (Nameless.bound.inj hab)]
      · exact absurd hab Nameless.noConfusion
      · exact absurd hab Nameless.noConfusion
      · exact hab

theorem not_closed (h : env.Leaves) (name : String) : ¬(env name).Closed := by
  rcases h.leaf name with ⟨i, hi⟩ | ⟨other, hother⟩
  · rw [hi]
    exact Nat.not_lt_zero i
  · rw [hother]
    exact id

/-- A term is closed if what is read is. -/
theorem closed_read_iff (h : env.Leaves) : (t.read env).Closed ↔ t.isClosed = true := by
  refine ⟨fun hread => Term.isClosed_iff.2 fun name hname => ?_, fun ht => Term.closed_read ht env⟩
  exact h.not_closed name (Term.closedAt_of_read hread name hname)

end Environment.Leaves

end Clausal
