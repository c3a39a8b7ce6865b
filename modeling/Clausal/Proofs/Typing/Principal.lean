import Clausal.Proofs.Typing.Inference

/-!
# Principal types

The type that inference finds for a term is the most general of all that the term has, and it
finds one if there is any. A typing starts from an assignment of types to all names and a run from
an environment that binds some of them; what connects the two is an image for the type variables
(`TypeEnv.RealizedBy`).

Soundness takes such an image for the result of a run back to its parts. Completeness is by
induction on the term and extends the image at each variable that the run draws: the image stays
as it is on the variables below (`Agree`), and the substitution of the run is absorbed by it.

## Main results

* `Inference.hasType_of_infer`: a run that succeeds finds a typing, and all instances of it;
* `Inference.infer_complete`: a run finds every typing as an instance of the one it returns;
* `Term.type_principal`: inference succeeds for the terms that have a type, and the types of a
  term are the instances of the one that is inferred.
-/

namespace Clausal

open Function (update)

/-- Each variable that an environment binds has the image of its type. -/
def TypeEnv.RealizedBy (env : TypeEnv) (image : TypeVar → Ty) (types : String → Ty) : Prop :=
  ∀ name t, env.lookup name = some t → types name = t.bind image

/-- Images that agree on the variables that are never drawn. -/
def Agree (next : Nat) (image image' : TypeVar → Ty) : Prop :=
  ∀ v, v.Below next → image' v = image v

/-- An image that is the same before and after a substitution. -/
def Subst.AbsorbedBy (s : Subst) (image : TypeVar → Ty) : Prop :=
  ∀ v, (s.image v).bind image = image v

namespace TypeEnv.RealizedBy

variable {env : TypeEnv} {image image' : TypeVar → Ty} {types : String → Ty}

/-- A variable that is bound anew has the image of its new type. -/
theorem cons {t u : Ty} (h : env.RealizedBy image types) (ht : u = t.bind image)
    (param : String) : RealizedBy ((param, t) :: env) image (update types param u) := by
  intro name t' ht'
  rw [List.lookup_cons] at ht'
  by_cases hname : name = param
  · rw [hname, beq_self_eq_true] at ht'
    rw [hname, Function.update_self, ← Option.some.inj ht', ht]
  · rw [beq_false_of_ne hname] at ht'
    rw [Function.update_of_ne hname]
    exact h name t' ht'

/-- An environment under a substitution, if the image after the substitution realizes the
environment. -/
theorem map_apply {s : Subst}
    (h : env.RealizedBy (fun v => (s.image v).bind image) types) :
    RealizedBy (env.map fun (name, t) => (name, s.apply t)) image types := by
  intro name t ht
  rw [Subst.lookup_map_apply] at ht
  obtain ⟨u, hu, rfl⟩ := Option.map_eq_some_iff.1 ht
  rw [h name u hu, Subst.apply, Ty.bind_bind]

/-- Only the variables that are never drawn matter. -/
theorem congr {next : Nat} (h : env.RealizedBy image types) (henv : env.Below next)
    (hagree : Agree next image image') : env.RealizedBy image' types := by
  intro name t ht
  rw [h name t ht]
  exact (henv name t ht).bind_congr fun v hv => (hagree v hv).symm

end TypeEnv.RealizedBy

namespace Subst.AbsorbedBy

variable {s : Subst} {image image' : TypeVar → Ty}

theorem empty (image : TypeVar → Ty) : Subst.empty.AbsorbedBy image := fun _ => rfl

/-- A substitution that is absorbed changes no type under the image. -/
theorem apply (h : s.AbsorbedBy image) (t : Ty) : (s.apply t).bind image = t.bind image := by
  rw [Subst.apply, Ty.bind_bind]
  exact Ty.bind_congr fun v _ => h v

/-- A substitution about variables that are never drawn is absorbed by an image that agrees on
them. -/
theorem congr {next : Nat} (h : s.AbsorbedBy image) (hs : s.Within next)
    (hagree : Agree next image image') : s.AbsorbedBy image' := by
  intro v
  by_cases hv : v.Below next
  · rw [hagree v hv, ← h v]
    exact ((hs v).1 hv).bind_congr hagree
  · rw [(hs v).2 hv, Ty.bind_var]

theorem compose {later earlier : Subst} (hlater : later.AbsorbedBy image)
    (hearlier : earlier.AbsorbedBy image) : (later.compose earlier).AbsorbedBy image := by
  intro v
  rw [Subst.image_compose, hlater.apply, hearlier v]

end Subst.AbsorbedBy

namespace Agree

variable {next next' : Nat} {image image' image'' : TypeVar → Ty}

theorem trans (h : Agree next image image') (h' : Agree next' image' image'')
    (hle : next ≤ next') : Agree next image image'' :=
  fun v hv => (h' v (hv.mono hle)).trans (h v hv)

/-- The image of the next variable can be chosen. -/
theorem update_numbered (next : Nat) (image : TypeVar → Ty) (t : Ty) :
    Agree next image (update image (.numbered next) t) := by
  intro v hv
  rw [Function.update_of_ne]
  rintro rfl
  exact absurd (TypeVar.below_numbered_iff.1 hv) (Nat.lt_irrefl _)

end Agree

namespace Inference

variable {r : Registry} {env : TypeEnv} {next next' : Nat} {s : Subst} {ty : Ty}

/-! ## Soundness -/

/-- A run that succeeds finds a typing: every instance of its type is a type of the term, if the
variables have the instances of theirs. -/
theorem hasType_of_infer (hr : r.Reachable) {t : Term}
    (h : infer r env t next = .ok (s, ty) next') (henv : env.Below next)
    (hbound : ∀ name ∈ t.free, ∃ u, env.lookup name = some u) {image : TypeVar → Ty}
    {types : String → Ty} (htypes : env.RealizedBy (fun v => (s.image v).bind image) types) :
    HasType r types t (ty.bind image) := by
  induction t generalizing env next next' s ty image types with
  | var name =>
    obtain ⟨rfl, ⟨hlookup, rfl⟩ | ⟨hlookup, -⟩⟩ := infer_var_eq_ok_iff.1 h
    · exact hasType_var_iff.2 (htypes name ty hlookup).symm
    -- all free variables are bound, so none is given a fresh type
    · obtain ⟨u, hu⟩ := hbound name (by rw [Term.free, List.mem_singleton])
      rw [hlookup] at hu
      contradiction
  | const c =>
    obtain ⟨rfl, scheme, hscheme, hinstance⟩ := infer_const_eq_ok_iff.1 h
    obtain ⟨image₀, hrun, -⟩ := instantiate_spec scheme next
    rw [hrun, EStateM.Result.ok.injEq] at hinstance
    obtain ⟨rfl, rfl⟩ := hinstance
    refine .const hscheme ((Registry.isClosed_of_signature hr hscheme).instance_iff.2 ?_)
    rw [Ty.bind_bind]
    exact Ty.generalizes_bind scheme.type _
  | abs param body ih =>
    obtain ⟨target, hbody, rfl⟩ := infer_abs_eq_ok_iff.1 h
    rw [Ty.bind_con]
    have hsource : (Ty.numbered next).Below (next + 1) :=
      Ty.below_numbered_iff.2 (Nat.lt_succ_self _)
    refine .abs (ih hbody ((henv.mono (Nat.le_succ _)).cons hsource param) (fun name hname => ?_)
      (htypes.cons (Ty.bind_bind _ _ _) param))
    rw [List.lookup_cons]
    split
    · exact ⟨_, rfl⟩
    · next hne =>
      exact hbound name (Term.mem_free_abs.2 ⟨hname, ne_of_beq_false hne⟩)
  | app func arg ihfunc iharg =>
    obtain ⟨s₁, funcType, next₁, s₂, argType, next₂, s₃, hfunc, harg, hunify, rfl, rfl, rfl⟩ :=
      infer_app_eq_ok_iff.1 h
    obtain ⟨hle₁, -, hs₁⟩ := infer_below hr hfunc henv
    have henv₁ := (henv.mono hle₁).map_apply hs₁
    obtain ⟨hle₂, -, hs₂⟩ := infer_below hr harg henv₁
    -- the result type is drawn last, so only the unifier says something about it
    have hresult : ((s₃.compose s₂).compose s₁).apply (.numbered next₂)
        = s₃.apply (.numbered next₂) := by
      rw [Subst.apply_compose, Subst.apply_compose, hs₁.apply_numbered hle₂,
        hs₂.apply_numbered (Nat.le_refl _)]
    have hunified : s₃.apply (s₂.apply funcType)
        = .arrow (s₃.apply argType) (s₃.apply (.numbered next₂)) := by
      have := (Unification.solves_cons.1 (unify_isMostGeneral hunify).solves).1
      rwa [Ty.bind_con] at this
    have htypes₁ : env.RealizedBy
        (fun v => (s₁.image v).bind fun v => ((s₃.compose s₂).image v).bind image) types := by
      intro name u hu
      rw [htypes name u hu]
      refine Ty.bind_congr fun v _ => ?_
      rw [Subst.image_compose, Subst.apply, Ty.bind_bind]
    have hfuncType := ihfunc hfunc henv
      (fun name hname => hbound name (Term.mem_free_app.2 (.inl hname))) htypes₁
    have hargType : HasType r types arg (argType.bind fun v => (s₃.image v).bind image) := by
      refine iharg harg henv₁ (fun name hname => ?_) (TypeEnv.RealizedBy.map_apply ?_)
      · obtain ⟨u, hu⟩ := hbound name (Term.mem_free_app.2 (.inr hname))
        exact ⟨s₁.apply u, by rw [Subst.lookup_map_apply, hu, Option.map_some]⟩
      · intro name u hu
        rw [htypes₁ name u hu]
        refine Ty.bind_congr fun v _ => Ty.bind_congr fun w _ => ?_
        rw [Subst.image_compose, Subst.apply, Ty.bind_bind]
    rw [hresult]
    refine hasType_app_iff.2 ⟨(s₃.apply argType).bind image, ?_, ?_⟩
    · have heq : (funcType.bind fun v => ((s₃.compose s₂).image v).bind image)
          = (s₃.apply (s₂.apply funcType)).bind image := by
        rw [← Subst.apply_compose, Subst.apply, Ty.bind_bind]
      rw [heq, hunified, Ty.bind_con] at hfuncType
      exact hfuncType
    · rw [Subst.apply, Ty.bind_bind]
      exact hargType

/-! ## Completeness -/

/-- A run finds every typing: it succeeds, the type is an instance of the one it returns, and the
image that makes it one extends the image at the start and absorbs the substitution of the run. -/
theorem infer_complete (hr : r.Reachable) {t : Term} {image : TypeVar → Ty}
    {types : String → Ty} (h : HasType r types t ty) (henv : env.Below next)
    (htypes : env.RealizedBy image types) :
    ∃ s ty' next' image', infer r env t next = .ok (s, ty') next' ∧ ty'.bind image' = ty
      ∧ Agree next image image' ∧ s.AbsorbedBy image' := by
  induction t generalizing env next image types ty with
  | var name =>
    rw [hasType_var_iff] at h
    cases hlookup : env.lookup name with
    | some u =>
      refine ⟨.empty, u, next, image, ?_, ?_, fun _ _ => rfl, .empty image⟩
      · exact infer_var_eq_ok_iff.2 ⟨rfl, .inl ⟨hlookup, rfl⟩⟩
      · rw [h, htypes name u hlookup]
    | none =>
      refine ⟨.empty, .numbered next, next + 1, update image (.numbered next) ty, ?_, ?_,
        .update_numbered next image ty, .empty _⟩
      · exact infer_var_eq_ok_iff.2 ⟨rfl, .inr ⟨hlookup, rfl, rfl⟩⟩
      · rw [Ty.numbered, Ty.bind_var, Function.update_self]
  | const c =>
    obtain ⟨scheme, hscheme, hty⟩ := hasType_const_iff.1 h
    have hclosed := Registry.isClosed_of_signature hr hscheme
    obtain ⟨image₁, rfl⟩ := Ty.generalizes_iff_exists_bind.1 (hclosed.instance_iff.1 hty)
    obtain ⟨image₂, hrun, -, himage₂⟩ := instantiate_spec scheme next
    -- a variable that is drawn has the image of the variable of the scheme that it stands for
    refine ⟨.empty, scheme.type.bind image₂, next + scheme.vars.length,
      fun w => if w.Below next then image w else image₁ (scheme.vars[w.id - next]?.getD w),
      infer_const_eq_ok_iff.2 ⟨rfl, scheme, hscheme, hrun⟩, ?_, fun v hv => if_pos hv, .empty _⟩
    rw [Ty.bind_bind]
    refine Ty.bind_congr fun v hv => ?_
    obtain ⟨k, hk, heq⟩ := himage₂ v (hclosed v hv)
    have hnot : ¬(TypeVar.numbered (next + k)).Below next := by
      rw [TypeVar.below_numbered_iff]
      exact Nat.not_lt_of_le (Nat.le_add_right _ _)
    rw [heq, Ty.numbered, Ty.bind_var, if_neg hnot, TypeVar.numbered, Nat.add_sub_cancel_left, hk,
      Option.getD_some]
  | abs param body ih =>
    obtain ⟨source, target, rfl, hbody⟩ := hasType_abs_iff.1 h
    have hagree := Agree.update_numbered next image source
    have hsource : source = (Ty.numbered next).bind (update image (.numbered next) source) := by
      rw [Ty.numbered, Ty.bind_var, Function.update_self]
    have hbelow : (Ty.numbered next).Below (next + 1) :=
      Ty.below_numbered_iff.2 (Nat.lt_succ_self _)
    obtain ⟨s, target', next', image', hrun, htarget, hagree', habsorbed⟩ :=
      ih hbody ((henv.mono (Nat.le_succ _)).cons hbelow param)
        ((htypes.congr henv hagree).cons hsource param)
    refine ⟨s, _, next', image', infer_abs_eq_ok_iff.2 ⟨target', hrun, rfl⟩, ?_,
      hagree.trans hagree' (Nat.le_succ _), habsorbed⟩
    rw [Ty.bind_con, List.map_cons, List.map_singleton, habsorbed.apply, htarget,
      hbelow.bind_congr hagree', ← hsource]
  | app func arg ihfunc iharg =>
    obtain ⟨source, hfunc, harg⟩ := hasType_app_iff.1 h
    -- the function, with an image that agrees with the first one on what was drawn before it
    obtain ⟨s₁, funcType, next₁, image₁, hrun₁, hfuncType, hagree₁, habsorbed₁⟩ :=
      ihfunc hfunc henv htypes
    obtain ⟨hle₁, hbelow₁, hs₁⟩ := infer_below hr hrun₁ henv
    have henv₁ := (henv.mono hle₁).map_apply hs₁
    have htypes₁ : TypeEnv.RealizedBy (env.map fun (name, t) => (name, s₁.apply t)) image₁
        types := by
      refine TypeEnv.RealizedBy.map_apply ?_
      rw [funext habsorbed₁]
      exact htypes.congr henv hagree₁
    -- the argument, in the environment that the function leaves
    obtain ⟨s₂, argType, next₂, image₂, hrun₂, hargType, hagree₂, habsorbed₂⟩ :=
      iharg harg henv₁ htypes₁
    obtain ⟨hle₂, hbelow₂, hs₂⟩ := infer_below hr hrun₂ henv₁
    -- with the type of the application for the result, the image solves the equation
    have hagree₃ := Agree.update_numbered next₂ image₂ ty
    generalize himage₃ : update image₂ (.numbered next₂) ty = image₃ at hagree₃
    have hresult : (Ty.numbered next₂).bind image₃ = ty := by
      rw [← himage₃, Ty.numbered, Ty.bind_var, Function.update_self]
    have habsorbed₁' := habsorbed₁.congr hs₁ (hagree₂.trans hagree₃ hle₂)
    have habsorbed₂' := habsorbed₂.congr hs₂ hagree₃
    have hsolves : (s₂.apply funcType).bind image₃
        = (Ty.arrow argType (.numbered next₂)).bind image₃ := by
      rw [habsorbed₂'.apply, hbelow₁.bind_congr (hagree₂.trans hagree₃ hle₂), hfuncType,
        Ty.bind_con, List.map_cons, List.map_singleton, hbelow₂.bind_congr hagree₃, hargType,
        hresult]
    cases hunify : unify (s₂.apply funcType) (.arrow argType (.numbered next₂)) with
    | error => exact absurd hsolves (not_unifiable_of_unify_error hunify image₃)
    | ok s₃ =>
      have habsorbed₃ : s₃.AbsorbedBy image₃ :=
        (unify_isMostGeneral hunify).absorbed image₃
          (Unification.solves_cons.2 ⟨hsolves, Unification.solves_nil _⟩)
      have habsorbed := (habsorbed₃.compose habsorbed₂').compose habsorbed₁'
      refine ⟨_, _, _, image₃, infer_app_eq_ok_iff.2 ⟨s₁, funcType, next₁, s₂, argType, next₂,
        s₃, hrun₁, hrun₂, hunify, rfl, rfl, rfl⟩, ?_,
        (hagree₁.trans hagree₂ hle₁).trans hagree₃ (Nat.le_trans hle₁ hle₂), habsorbed⟩
      rw [habsorbed.apply, hresult]

end Inference

/-! ## The inferred type -/

namespace Term

variable {r : Registry} {t : Term}

/-- What the inferred type is made of: the free variables get types of their own, and the type of
the run that follows has its variables numbered anew. -/
theorem type_eq_ok_iff {ty : Ty} :
    t.type r = .ok ty ↔ ∃ env next s u next',
      Inference.assume (sortedNames t.free) 0 = .ok env next
        ∧ Inference.infer r env t next = .ok (s, u) next' ∧ (s.apply u).normalized = ty := by
  obtain ⟨env, hassume, -⟩ := Inference.assume_spec (sortedNames t.free) 0
  have hrun : (Inference.assume (sortedNames t.free) >>= fun env => Inference.infer r env t).run 0
      = Inference.infer r env t (0 + (sortedNames t.free).length) := by
    change EStateM.bind _ _ _ = _
    rw [EStateM.bind, hassume]
  rw [type, hrun, hassume]
  constructor
  · intro h
    generalize hinfer : Inference.infer r env t _ = result at h
    cases result with
    | error => contradiction
    | ok a next' => exact ⟨env, _, a.1, a.2, next', rfl, hinfer, Except.ok.inj h⟩
  · rintro ⟨_, _, s, u, next', ⟨⟩, hinfer, rfl⟩
    rw [hinfer]

/-- The environment that a run starts with: it binds the free variables, each to a variable of its
own. -/
theorem exists_assume (t : Term) :
    ∃ (env : TypeEnv) (next : Nat),
      Inference.assume (sortedNames t.free) 0 = .ok env next ∧ env.Below next
        ∧ (∀ name ∈ t.free, ∃ u, env.lookup name = some u)
        ∧ ∀ types : String → Ty, ∃ image, env.RealizedBy image types := by
  obtain ⟨env, hassume, hbound, hlookup⟩ := Inference.assume_spec (sortedNames t.free) 0
  -- the image of a variable is the type of the name that it was drawn for
  refine ⟨env, _, hassume, fun name u hu => ?_,
    fun name hname => hbound name (mem_sortedNames.2 hname),
    fun types => ⟨fun v => types ((sortedNames t.free)[v.id]?.getD ""), fun name u hu => ?_⟩⟩
  · obtain ⟨k, hk, rfl⟩ := hlookup name u hu
    obtain ⟨hlt, -⟩ := List.getElem?_eq_some_iff.1 hk
    exact Ty.below_numbered_iff.2 (Nat.add_lt_add_left hlt 0)
  · obtain ⟨k, hk, rfl⟩ := hlookup name u hu
    rw [Ty.numbered, Ty.bind_var, TypeVar.numbered, Nat.zero_add, hk, Option.getD_some]

/-- Every instance of the inferred type is a type of the term. -/
theorem exists_hasType_of_type (hr : r.Reachable) {ty u : Ty} (h : t.type r = .ok ty)
    (hu : ty.Generalizes u) : ∃ types, HasType r types t u := by
  obtain ⟨env, next, s, ty', next', hassume, hinfer, rfl⟩ := type_eq_ok_iff.1 h
  obtain ⟨env', _, hassume', henv, hbound, -⟩ := exists_assume t
  rw [hassume, EStateM.Result.ok.injEq] at hassume'
  obtain ⟨rfl, rfl⟩ := hassume'
  obtain ⟨image, rfl⟩ :=
    Ty.generalizes_iff_exists_bind.1 (Ty.generalizes_normalized_iff.1 hu)
  rw [Subst.apply, Ty.bind_bind]
  refine ⟨fun name => ((env.lookup name).getD .int).bind fun v => (s.image v).bind fun v =>
    (s.image v).bind image, Inference.hasType_of_infer hr hinfer henv hbound fun name u hu => ?_⟩
  rw [hu, Option.getD_some]

/-- The inferred type exists for every term that has a type, and generalizes that type. -/
theorem exists_type_of_hasType (hr : r.Reachable) {types : String → Ty} {u : Ty}
    (h : HasType r types t u) : ∃ ty, t.type r = .ok ty ∧ ty.Generalizes u := by
  obtain ⟨env, next, hassume, henv, -, hrealized⟩ := exists_assume t
  obtain ⟨image, himage⟩ := hrealized types
  obtain ⟨s, ty, next', image', hinfer, rfl, -, habsorbed⟩ :=
    Inference.infer_complete hr h henv himage
  refine ⟨_, type_eq_ok_iff.2 ⟨env, next, s, ty, next', hassume, hinfer, rfl⟩, ?_⟩
  rw [Ty.generalizes_normalized_iff, ← habsorbed.apply]
  exact Ty.generalizes_bind _ image'

/-- The types of a term are the instances of the type that is inferred. -/
theorem generalizes_iff_of_type (hr : r.Reachable) {ty : Ty} (h : t.type r = .ok ty) (u : Ty) :
    ty.Generalizes u ↔ ∃ types, HasType r types t u := by
  refine ⟨exists_hasType_of_type hr h, ?_⟩
  rintro ⟨types, htyped⟩
  obtain ⟨ty', hty', hgeneralizes⟩ := exists_type_of_hasType hr htyped
  rw [h] at hty'
  exact Except.ok.inj hty' ▸ hgeneralizes

/-- Inference is principal. It succeeds exactly for the terms that have a type under some
assignment to their free variables and fails exactly for the others, and the types that a term has
are the instances of the one that is inferred. -/
theorem type_principal (hr : r.Reachable) (t : Term) :
    ((∃ ty, t.type r = .ok ty) ↔ ∃ types u, HasType r types t u)
      ∧ (∀ ty, t.type r = .ok ty → ∀ u, (∃ types, HasType r types t u) ↔ ty.Generalizes u)
      ∧ ((∃ error, t.type r = .error error) ↔ ¬∃ types u, HasType r types t u) := by
  have hok : (∃ ty, t.type r = .ok ty) ↔ ∃ types u, HasType r types t u := by
    constructor
    · rintro ⟨ty, h⟩
      obtain ⟨types, htyped⟩ := exists_hasType_of_type hr h (.refl ty)
      exact ⟨types, ty, htyped⟩
    · rintro ⟨types, u, htyped⟩
      obtain ⟨ty, h, -⟩ := exists_type_of_hasType hr htyped
      exact ⟨ty, h⟩
  refine ⟨hok, fun ty h u => (generalizes_iff_of_type hr h u).symm, ?_⟩
  rw [← hok]
  cases t.type r with
  | ok ty => exact ⟨nofun, fun h => absurd ⟨ty, rfl⟩ h⟩
  | error error => exact ⟨fun _ => nofun, fun _ => ⟨error, rfl⟩⟩

/-- A constructor applied to a free variable has the data type of every type. -/
theorem type_principal_some_var :
    ((Term.const (.constructor "Some")).app (.var "x")).type .optional
        = .ok (.data "Option" [.numbered 0])
      ∧ ∀ u, (∃ types, HasType .optional types
          ((Term.const (.constructor "Some")).app (.var "x")) u)
        ↔ (Ty.data "Option" [.numbered 0]).Generalizes u := by
  have h : ((Term.const (.constructor "Some")).app (.var "x")).type .optional
      = .ok (.data "Option" [.numbered 0]) := by cbv
  exact ⟨h, (type_principal Registry.reachable_optional _).2.1 _ h⟩

end Term

end Clausal
