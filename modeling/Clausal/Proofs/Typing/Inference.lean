import Clausal.Proofs.Typing.HasType
import Clausal.Proofs.Typing.MostGeneral
import Clausal.Typing.Inference

/-!
# Runs of type inference

What a run of inference on each kind of term comes to, and which variables it may draw. A run
starts with the number of the next fresh variable and ends with another one; the variables that
are `Below` a number are those that a supply from there on never draws.

## Main results

* `Inference.infer_app_eq_ok_iff` and its companions: the runs that succeed;
* `Inference.instantiate_spec`: the type of a constant has different fresh variables in the place
  of the variables of its scheme;
* `Inference.infer_below`: the type and the substitution of a run are about variables that the
  supply never draws again.
-/

namespace Clausal

/-! ## Variables that are never drawn again -/

/-- A variable that a supply of numbers from `next` on does not draw. -/
def TypeVar.Below (next : Nat) (v : TypeVar) : Prop := v.name = none → v.id < next

instance (next : Nat) (v : TypeVar) : Decidable (v.Below next) :=
  inferInstanceAs (Decidable (v.name = none → v.id < next))

@[simp] theorem TypeVar.below_numbered_iff {next k : Nat} :
    (TypeVar.numbered k).Below next ↔ k < next := by
  simp [TypeVar.Below, TypeVar.numbered]

theorem TypeVar.Below.mono {next next' : Nat} {v : TypeVar} (h : v.Below next)
    (hle : next ≤ next') : v.Below next' :=
  fun hname => Nat.lt_of_lt_of_le (h hname) hle

namespace Ty

/-- A type whose variables are never drawn. -/
def Below (next : Nat) (t : Ty) : Prop := ∀ v ∈ t.vars, v.Below next

@[simp] theorem below_numbered_iff {next k : Nat} : (numbered k).Below next ↔ k < next := by
  simp [Below, numbered]

theorem Below.mono {next next' : Nat} {t : Ty} (h : t.Below next) (hle : next ≤ next') :
    t.Below next' :=
  fun v hv => (h v hv).mono hle

theorem below_arrow_iff {next : Nat} {source target : Ty} :
    (Ty.arrow source target).Below next ↔ source.Below next ∧ target.Below next := by
  simp only [Below, mem_vars_arrow, or_imp, forall_and]

/-- Images that agree on the variables that are never drawn agree on types over them. -/
theorem Below.bind_congr {next : Nat} {t : Ty} {image image' : TypeVar → Ty} (h : t.Below next)
    (hagree : ∀ v, v.Below next → image v = image' v) : t.bind image = t.bind image' :=
  Ty.bind_congr fun v hv => hagree v (h v hv)

end Ty

namespace Subst

/-- A substitution about variables that are never drawn: it maps them to types over them and
leaves the others alone. -/
def Within (next : Nat) (s : Subst) : Prop :=
  ∀ v, (v.Below next → (s.image v).Below next) ∧ (¬v.Below next → s.image v = .var v)

theorem within_empty (next : Nat) : empty.Within next :=
  fun v => ⟨fun hv w hw => by rwa [image_empty, Ty.mem_vars_var.1 hw] at *, fun _ => rfl⟩

theorem Within.apply {next : Nat} {s : Subst} {t : Ty} (hs : s.Within next) (ht : t.Below next) :
    (s.apply t).Below next := by
  intro v hv
  obtain ⟨w, hw, hv⟩ := mem_vars_apply.1 hv
  exact (hs w).1 (ht w hw) v hv

/-- A variable that is yet to be drawn is left alone. -/
theorem Within.apply_numbered {next k : Nat} {s : Subst} (hs : s.Within next) (h : next ≤ k) :
    s.apply (.numbered k) = .numbered k :=
  (hs (.numbered k)).2 fun hbelow => Nat.not_lt_of_le h (TypeVar.below_numbered_iff.1 hbelow)

theorem Within.mono {next next' : Nat} {s : Subst} (h : s.Within next) (hle : next ≤ next') :
    s.Within next' := by
  intro v
  by_cases hv : v.Below next
  · exact ⟨fun _ => ((h v).1 hv).mono hle, fun hnot => absurd (hv.mono hle) hnot⟩
  · refine ⟨fun hv' w hw => ?_, fun _ => (h v).2 hv⟩
    rw [(h v).2 hv, Ty.mem_vars_var] at hw
    rwa [hw]

theorem Within.compose {next : Nat} {later earlier : Subst} (hlater : later.Within next)
    (hearlier : earlier.Within next) : (later.compose earlier).Within next := by
  intro v
  rw [image_compose]
  refine ⟨fun hv => hlater.apply ((hearlier v).1 hv), fun hv => ?_⟩
  rw [(hearlier v).2 hv]
  exact (hlater v).2 hv

end Subst

/-- A most general solution is about the variables of the equations. -/
theorem within_of_unify {next : Nat} {left right : Ty} {s : Subst} (h : unify left right = .ok s)
    (hleft : left.Below next) (hright : right.Below next) : s.Within next := by
  have hs := unify_isMostGeneral h
  have hvars : ∀ v ∈ Unification.varsOf [(left, right)], v.Below next := by
    intro v hv
    simp only [Unification.mem_varsOf, List.mem_singleton, exists_eq_left] at hv
    exact hv.elim (hleft v) (hright v)
  intro v
  by_cases hv : v ∈ Unification.varsOf [(left, right)]
  · exact ⟨fun _ w hw => hvars w (hs.mem_of_mem_image v hv w hw),
      fun hnot => absurd (hvars v hv) hnot⟩
  · rw [hs.image_of_not_mem v hv]
    exact ⟨fun hbelow w hw => Ty.mem_vars_var.1 hw ▸ hbelow, fun _ => rfl⟩

namespace TypeEnv

/-- The types of an environment are about variables that are never drawn. -/
def Below (next : Nat) (env : TypeEnv) : Prop :=
  ∀ name t, env.lookup name = some t → t.Below next

theorem Below.cons {next : Nat} {env : TypeEnv} {t : Ty} (h : env.Below next) (ht : t.Below next)
    (param : String) : Below next ((param, t) :: env) := by
  intro name u hu
  rw [List.lookup_cons] at hu
  split at hu
  · exact Option.some.inj hu ▸ ht
  · exact h name u hu

theorem Below.mono {next next' : Nat} {env : TypeEnv} (h : env.Below next) (hle : next ≤ next') :
    env.Below next' :=
  fun name t ht => (h name t ht).mono hle

theorem Below.map_apply {next : Nat} {env : TypeEnv} {s : Subst} (h : env.Below next)
    (hs : s.Within next) : Below next (env.map fun (name, t) => (name, s.apply t)) := by
  intro name t ht
  rw [Subst.lookup_map_apply] at ht
  obtain ⟨u, hu, rfl⟩ := Option.map_eq_some_iff.1 ht
  exact hs.apply (h name u hu)

end TypeEnv

namespace Inference

variable {r : Registry} {env : TypeEnv} {next next' : Nat} {s : Subst} {ty : Ty}

/-! ## Runs that succeed -/

theorem bind_eq_ok_iff {α β : Type} {first : Inference α} {rest : α → Inference β} {b : β} :
    (first >>= rest) next = .ok b next'
      ↔ ∃ a next₁, first next = .ok a next₁ ∧ rest a next₁ = .ok b next' := by
  change EStateM.bind first rest next = _ ↔ _
  rw [EStateM.bind]
  match first next with
  | .ok a next₁ =>
    constructor
    · exact fun h => ⟨a, next₁, rfl, h⟩
    · rintro ⟨_, _, ⟨⟩, h⟩
      exact h
  | .error _ _ =>
    constructor
    · exact nofun
    · rintro ⟨_, _, ⟨⟩, _⟩

theorem pure_eq_ok_iff {α : Type} {a b : α} :
    (pure a : Inference α) next = .ok b next' ↔ a = b ∧ next = next' := by
  change EStateM.Result.ok a next = _ ↔ _
  rw [EStateM.Result.ok.injEq]

theorem fresh_eq_ok_iff {v : TypeVar} :
    fresh next = .ok v next' ↔ v = .numbered next ∧ next' = next + 1 := by
  change EStateM.Result.ok (TypeVar.numbered next) (next + 1) = _ ↔ _
  rw [EStateM.Result.ok.injEq, eq_comm, eq_comm (a := next + 1)]

theorem ofExcept_eq_ok_iff {α : Type} {result : Except TypeError α} {a : α} :
    (ofExcept result) next = .ok a next' ↔ result = .ok a ∧ next' = next := by
  cases result with
  | ok a' =>
    rw [ofExcept, pure_eq_ok_iff, Except.ok.injEq, eq_comm (a := next)]
  | error _ =>
    constructor
    · exact nofun
    · rintro ⟨⟨⟩, _⟩

theorem infer_var_eq_ok_iff {name : String} :
    infer r env (.var name) next = .ok (s, ty) next'
      ↔ s = .empty ∧ (env.lookup name = some ty ∧ next' = next
        ∨ env.lookup name = none ∧ ty = .numbered next ∧ next' = next + 1) := by
  rw [infer]
  cases env.lookup name with
  | some t =>
    simp only [pure_eq_ok_iff, Prod.mk.injEq]
    grind
  | none =>
    simp only [bind_eq_ok_iff, fresh_eq_ok_iff, pure_eq_ok_iff, Prod.mk.injEq, Ty.numbered]
    grind

theorem infer_const_eq_ok_iff {c : Constant} :
    infer r env (.const c) next = .ok (s, ty) next'
      ↔ s = .empty ∧ ∃ scheme, c.signature r = .ok scheme
        ∧ instantiate scheme next = .ok ty next' := by
  rw [infer]
  simp only [bind_eq_ok_iff, ofExcept_eq_ok_iff, pure_eq_ok_iff, Prod.mk.injEq]
  constructor
  · rintro ⟨scheme, _, ⟨hscheme, rfl⟩, t, _, ht, ⟨rfl, rfl⟩, rfl⟩
    exact ⟨rfl, scheme, hscheme, ht⟩
  · rintro ⟨rfl, scheme, hscheme, ht⟩
    exact ⟨scheme, _, ⟨hscheme, rfl⟩, ty, _, ht, ⟨rfl, rfl⟩, rfl⟩

theorem infer_abs_eq_ok_iff {param : String} {body : Term} :
    infer r env (.abs param body) next = .ok (s, ty) next'
      ↔ ∃ target,
        infer r ((param, .numbered next) :: env) body (next + 1) = .ok (s, target) next'
        ∧ ty = .arrow (s.apply (.numbered next)) target := by
  rw [infer]
  simp only [bind_eq_ok_iff, fresh_eq_ok_iff, pure_eq_ok_iff, Prod.mk.injEq]
  constructor
  · rintro ⟨_, _, ⟨rfl, rfl⟩, ⟨s', target⟩, _, hbody, ⟨rfl, rfl⟩, rfl⟩
    exact ⟨target, hbody, rfl⟩
  · rintro ⟨target, hbody, rfl⟩
    exact ⟨_, _, ⟨rfl, rfl⟩, (s, target), _, hbody, ⟨rfl, rfl⟩, rfl⟩

theorem infer_app_eq_ok_iff {func arg : Term} :
    infer r env (.app func arg) next = .ok (s, ty) next'
      ↔ ∃ s₁ funcType next₁ s₂ argType next₂ s₃,
        infer r env func next = .ok (s₁, funcType) next₁
        ∧ infer r (env.map fun (name, t) => (name, s₁.apply t)) arg next₁
          = .ok (s₂, argType) next₂
        ∧ unify (s₂.apply funcType) (.arrow argType (.numbered next₂)) = .ok s₃
        ∧ s = (s₃.compose s₂).compose s₁ ∧ ty = s.apply (.numbered next₂)
        ∧ next' = next₂ + 1 := by
  rw [infer]
  simp only [bind_eq_ok_iff, fresh_eq_ok_iff]
  constructor
  · rintro ⟨⟨s₁, funcType⟩, next₁, hfunc, ⟨s₂, argType⟩, next₂, harg, _, _, ⟨rfl, rfl⟩, h⟩
    dsimp only at h
    generalize hunify : unify _ _ = unified at h
    cases unified with
    | error => contradiction
    | ok s₃ =>
      rw [pure_eq_ok_iff, Prod.mk.injEq] at h
      obtain ⟨⟨rfl, rfl⟩, rfl⟩ := h
      exact ⟨s₁, funcType, next₁, s₂, argType, next₂, s₃, hfunc, harg, hunify, rfl, rfl, rfl⟩
  · rintro ⟨s₁, funcType, next₁, s₂, argType, next₂, s₃, hfunc, harg, hunify, rfl, rfl, rfl⟩
    refine ⟨(s₁, funcType), next₁, hfunc, (s₂, argType), next₂, harg, _, _, ⟨rfl, rfl⟩, ?_⟩
    rw [Ty.numbered] at hunify
    dsimp only
    rw [hunify]
    rfl

/-! ## Fresh instances -/

/-- Different fresh variables for some variables, numbered from the next one on. -/
def freshBindings (next : Nat) (vars : List TypeVar) : List (TypeVar × Ty) :=
  (vars.zipIdx next).map fun (v, k) => (v, .numbered k)

theorem mem_freshBindings {vars : List TypeVar} {v : TypeVar} {t : Ty} :
    (v, t) ∈ freshBindings next vars ↔ ∃ k, vars[k]? = some v ∧ t = .numbered (next + k) := by
  simp only [freshBindings, List.mem_map, Prod.exists, Prod.mk.injEq,
    List.mk_mem_zipIdx_iff_le_and_getElem?_sub]
  constructor
  · rintro ⟨_, k, ⟨hle, hk⟩, rfl, rfl⟩
    exact ⟨k - next, hk, by rw [Nat.add_sub_cancel' hle]⟩
  · rintro ⟨k, hk, rfl⟩
    exact ⟨v, next + k, ⟨Nat.le_add_right _ _, by rwa [Nat.add_sub_cancel_left]⟩, rfl, rfl⟩

/-- Drawing a variable for each of some variables never fails. -/
theorem mapM_fresh_eq (vars : List TypeVar) (next : Nat) :
    (vars.mapM fun v => do return (v, Ty.var (← fresh)) : Inference _) next
      = .ok (freshBindings next vars) (next + vars.length) := by
  induction vars generalizing next with
  | nil => rfl
  | cons v vars ih =>
    rw [List.mapM_cons]
    simp only [bind_eq_ok_iff, fresh_eq_ok_iff, pure_eq_ok_iff]
    refine ⟨_, _, ⟨_, _, ⟨rfl, rfl⟩, rfl, rfl⟩, _, _, ih (next + 1), ?_, ?_⟩
    · rw [freshBindings, freshBindings, List.zipIdx_cons, List.map_cons]
      rfl
    · rw [List.length_cons]
      omega

/-- The instance of a scheme that a run makes: its variables become different ones, numbered from
the next one on. -/
theorem instantiate_spec (scheme : Scheme) (next : Nat) :
    ∃ image, instantiate scheme next
        = .ok (scheme.type.bind image) (next + scheme.vars.length)
      ∧ (∀ v, v ∉ scheme.vars → image v = .var v)
      ∧ ∀ v ∈ scheme.vars, ∃ k, scheme.vars[k]? = some v ∧ image v = .numbered (next + k) := by
  have hfind := Subst.find?_ofList_spec (freshBindings next scheme.vars)
  refine ⟨(Subst.ofList (freshBindings next scheme.vars)).image, ?_, fun v hv => ?_,
    fun v hv => ?_⟩
  · rw [instantiate, bind_eq_ok_iff]
    exact ⟨_, _, mapM_fresh_eq scheme.vars next, pure_eq_ok_iff.2 ⟨rfl, rfl⟩⟩
  -- a variable that is not quantified has no binding
  · rw [Subst.image]
    cases hlookup : Subst.find? _ v with
    | none => rfl
    | some t =>
      obtain ⟨k, hk, -⟩ := mem_freshBindings.1 ((hfind v).1 t hlookup)
      exact absurd (List.mem_of_getElem? hk) hv
  -- and one that is has a binding to the variable drawn for its place
  · rw [Subst.image]
    cases hlookup : Subst.find? _ v with
    | none =>
      obtain ⟨k, hk⟩ := List.mem_iff_getElem?.1 hv
      exact absurd (mem_freshBindings.2 ⟨k, hk, rfl⟩) ((hfind v).2 hlookup _)
    | some t => exact mem_freshBindings.1 ((hfind v).1 t hlookup)

/-! ## What a run is about -/

/-- The type and the substitution of a run are about variables that are never drawn again. -/
theorem infer_below (hr : r.Reachable) {t : Term} (h : infer r env t next = .ok (s, ty) next')
    (henv : env.Below next) : next ≤ next' ∧ ty.Below next' ∧ s.Within next' := by
  induction t generalizing env next next' s ty with
  | var name =>
    obtain ⟨rfl, ⟨hlookup, rfl⟩ | ⟨-, rfl, rfl⟩⟩ := infer_var_eq_ok_iff.1 h
    · exact ⟨Nat.le_refl _, henv name ty hlookup, Subst.within_empty _⟩
    · exact ⟨Nat.le_succ _, Ty.below_numbered_iff.2 (Nat.lt_succ_self _), Subst.within_empty _⟩
  | const c =>
    obtain ⟨rfl, scheme, hscheme, hinstance⟩ := infer_const_eq_ok_iff.1 h
    obtain ⟨image, hrun, -, himage⟩ := instantiate_spec scheme next
    rw [hrun, EStateM.Result.ok.injEq] at hinstance
    obtain ⟨rfl, rfl⟩ := hinstance
    -- every variable of the type stands for one of the scheme, and those are all quantified
    refine ⟨Nat.le_add_right _ _, fun w hw => ?_, Subst.within_empty _⟩
    rw [Ty.vars_bind, List.mem_flatMap] at hw
    obtain ⟨v, hv, hw⟩ := hw
    obtain ⟨k, hk, heq⟩ := himage v (Registry.isClosed_of_signature hr hscheme v hv)
    rw [heq] at hw
    obtain ⟨hlt, -⟩ := List.getElem?_eq_some_iff.1 hk
    exact Ty.below_numbered_iff.2 (Nat.add_lt_add_left hlt next) w hw
  | abs param body ih =>
    obtain ⟨target, hbody, rfl⟩ := infer_abs_eq_ok_iff.1 h
    have hsource : (Ty.numbered next).Below (next + 1) :=
      Ty.below_numbered_iff.2 (Nat.lt_succ_self _)
    obtain ⟨hle, htarget, hs⟩ := ih hbody ((henv.mono (Nat.le_succ _)).cons hsource param)
    exact ⟨Nat.le_of_succ_le hle,
      Ty.below_arrow_iff.2 ⟨hs.apply (hsource.mono hle), htarget⟩, hs⟩
  | app func arg ihfunc iharg =>
    obtain ⟨s₁, funcType, next₁, s₂, argType, next₂, s₃, hfunc, harg, hunify, rfl, rfl, rfl⟩ :=
      infer_app_eq_ok_iff.1 h
    obtain ⟨hle₁, hfuncType, hs₁⟩ := ihfunc hfunc henv
    obtain ⟨hle₂, hargType, hs₂⟩ := iharg harg ((henv.mono hle₁).map_apply hs₁)
    -- the two sides of the equation, and with them its solution, are about what has been drawn
    have hle : next₂ ≤ next₂ + 1 := Nat.le_succ _
    have hresult : (Ty.numbered next₂).Below (next₂ + 1) :=
      Ty.below_numbered_iff.2 (Nat.lt_succ_self _)
    have hs₃ : s₃.Within (next₂ + 1) :=
      within_of_unify hunify ((hs₂.apply (hfuncType.mono hle₂)).mono hle)
        (Ty.below_arrow_iff.2 ⟨hargType.mono hle, hresult⟩)
    have hs : ((s₃.compose s₂).compose s₁).Within (next₂ + 1) :=
      (hs₃.compose (hs₂.mono hle)).compose ((hs₁.mono hle₂).mono hle)
    exact ⟨by omega, hs.apply hresult, hs⟩

/-! ## Assumptions about free variables -/

/-- Assumptions about more names keep those that were made, unless a name comes again. -/
theorem foldlM_fresh_spec (names : List String) (next : Nat) (env : TypeEnv) :
    ∃ env' : TypeEnv,
      (names.foldlM (fun env name => do return (name, Ty.var (← fresh)) :: env) env :
        Inference TypeEnv) next = .ok env' (next + names.length)
      ∧ (∀ name, name ∈ names ∨ (∃ t, env.lookup name = some t) →
        ∃ t, env'.lookup name = some t)
      ∧ ∀ name t, env'.lookup name = some t → env.lookup name = some t
        ∨ ∃ k, names[k]? = some name ∧ t = .numbered (next + k) := by
  induction names generalizing next env with
  | nil =>
    refine ⟨env, rfl, fun name h => ?_, fun name t h => .inl h⟩
    exact h.resolve_left List.not_mem_nil
  | cons first names ih =>
    obtain ⟨env', hrun, hbound, hlookup⟩ := ih (next + 1) ((first, .numbered next) :: env)
    refine ⟨env', ?_, fun name h => hbound name ?_, fun name t h => ?_⟩
    · rw [List.foldlM_cons, List.length_cons, ← Nat.add_assoc, Nat.add_right_comm]
      simp only [bind_eq_ok_iff, fresh_eq_ok_iff, pure_eq_ok_iff]
      exact ⟨_, _, ⟨_, _, ⟨rfl, rfl⟩, rfl, rfl⟩, hrun⟩
    · by_cases hname : name = first
      · exact .inr ⟨_, by rw [hname, List.lookup_cons_self]⟩
      · refine h.imp (fun h => (List.mem_cons.1 h).resolve_left hname) fun ⟨t, ht⟩ => ⟨t, ?_⟩
        rw [List.lookup_cons, beq_false_of_ne hname]
        exact ht
    · rcases hlookup name t h with h | ⟨k, hk, rfl⟩
      -- the first name has the variable with the next number
      · rw [List.lookup_cons] at h
        split at h
        · next hname =>
          refine .inr ⟨0, ?_, (Option.some.inj h).symm⟩
          rw [List.getElem?_cons_zero, eq_of_beq hname]
        · exact .inl h
      · refine .inr ⟨k + 1, ?_, ?_⟩
        · rwa [List.getElem?_cons_succ]
        · rw [Nat.add_assoc, Nat.add_comm 1 k]

/-- The environment of some names has a different variable for each of them, numbered from the
next one on. -/
theorem assume_spec (names : List String) (next : Nat) :
    ∃ env : TypeEnv, assume names next = .ok env (next + names.length)
      ∧ (∀ name ∈ names, ∃ t, env.lookup name = some t)
      ∧ ∀ name t, env.lookup name = some t →
        ∃ k, names[k]? = some name ∧ t = .numbered (next + k) := by
  obtain ⟨env, hassume, hbound, hlookup⟩ := foldlM_fresh_spec names next []
  refine ⟨env, hassume, fun name h => hbound name (.inl h), fun name t h => ?_⟩
  exact (hlookup name t h).resolve_left nofun

end Inference

end Clausal
