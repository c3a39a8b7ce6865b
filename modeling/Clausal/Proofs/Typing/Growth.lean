import Clausal.Proofs.Typing.Principal
import Clausal.Proofs.Typing.Registry

/-!
# The growth of a registry

Declarations are added to a registry one after the other, some accepted and some not. Nothing that
has been looked up changes later, and so neither do the types of terms.

## Main results

* `Registry.Extends.type_eq_ok`: a term keeps its type in a registry that has grown;
* `Registry.invariant_afterAll`: the invariant after every sequence of additions, and what the
  additions after them keep.
-/

namespace Clausal

namespace Registry

variable {r r' : Registry}

/-- The type of a constructor is made of the variables that it is quantified over. -/
theorem mem_vars_of_constructorType? (hr : r.Reachable) {name : String} {t : ConstructorType}
    (h : r.constructorType? name = some t) :
    (∀ field ∈ t.fields, ∀ v ∈ field.vars, v ∈ t.vars) ∧ ∀ v ∈ t.result.vars, v ∈ t.vars := by
  have hok : r.constructorType name = .ok t := by rw [constructorType, h]
  obtain ⟨⟨_, hresult⟩, hfields⟩ := constructorType_spec hr hok
  refine ⟨hfields, fun v hv => ?_⟩
  rw [hresult, Ty.mem_vars_con] at hv
  obtain ⟨param, hparam, hv⟩ := hv
  obtain ⟨w, hw, rfl⟩ := List.mem_map.1 hparam
  rwa [Ty.mem_vars_var.1 hv]

/-! ## More declarations -/

/-- A registry with more declarations after those of another one. -/
def Extends (r' r : Registry) : Prop := r.decls <+: r'.decls

namespace Extends

variable (h : r'.Extends r)

include h

/-- An owner stays. -/
theorem owner?_eq_some {name : String} {x : DataDecl × ConstructorDecl}
    (howner : r.owner? name = some x) : r'.owner? name = some x := by
  obtain ⟨later, hlater⟩ := h
  rw [owner?, ← hlater, List.findSome?_append]
  exact Option.or_eq_some_iff.2 (.inl howner)

theorem constructorType_eq_ok {name : String} {t : ConstructorType}
    (ht : r.constructorType name = .ok t) : r'.constructorType name = .ok t := by
  rw [constructorType] at ht ⊢
  split at ht
  · next t' ht' =>
    obtain ⟨x, howner, -⟩ := Option.map_eq_some_iff.1 ht'
    rw [constructorType?, howner] at ht'
    rw [constructorType?, h.owner?_eq_some howner, ht']
    exact ht
  · contradiction

/-- A constant that has a type keeps it. -/
theorem signature_eq_ok {c : Constant} {scheme : Scheme} (hc : c.signature r = .ok scheme) :
    c.signature r' = .ok scheme := by
  have hkeep {name : String} {build : ConstructorType → Scheme}
      (hbuild : (r.constructorType name).bind (fun t => .ok (build t)) = .ok scheme) :
      (r'.constructorType name).bind (fun t => .ok (build t)) = .ok scheme := by
    obtain ⟨t, ht, rfl⟩ := bind_constructorType_eq_ok hbuild
    rw [h.constructorType_eq_ok ht]
    rfl
  match c with
  | .literal _ => exact hc
  | .constructor name => exact hkeep hc
  | .primitive (.isConstructor name) => exact hkeep hc
  | .primitive (.argOf name) => exact hkeep hc
  | .primitive (.operator _) | .primitive .branch | .primitive .fix | .primitive .bot
  | .primitive (.tuple _) | .primitive (.isTuple _) | .primitive (.select _ _)
  | .primitive (.isLiteral _) => exact hc

/-- Inference goes the same way. -/
theorem infer_eq_ok {t : Term} {env : TypeEnv} {next next' : Nat} {s : Subst} {ty : Ty}
    (ht : Inference.infer r env t next = .ok (s, ty) next') :
    Inference.infer r' env t next = .ok (s, ty) next' := by
  induction t generalizing env next next' s ty with
  | var name => exact Inference.infer_var_eq_ok_iff.2 (Inference.infer_var_eq_ok_iff.1 ht)
  | const c =>
    obtain ⟨hs, scheme, hscheme, hty⟩ := Inference.infer_const_eq_ok_iff.1 ht
    exact Inference.infer_const_eq_ok_iff.2 ⟨hs, scheme, h.signature_eq_ok hscheme, hty⟩
  | abs param body ih =>
    obtain ⟨target, hbody, hty⟩ := Inference.infer_abs_eq_ok_iff.1 ht
    exact Inference.infer_abs_eq_ok_iff.2 ⟨target, ih hbody, hty⟩
  | app func arg ihf iha =>
    obtain ⟨s₁, funcType, next₁, s₂, argType, next₂, s₃, hfunc, harg, hrest⟩ :=
      Inference.infer_app_eq_ok_iff.1 ht
    exact Inference.infer_app_eq_ok_iff.2
      ⟨s₁, funcType, next₁, s₂, argType, next₂, s₃, ihf hfunc, iha harg, hrest⟩

/-- A term keeps its type. -/
theorem type_eq_ok {t : Term} {ty : Ty} (ht : t.type r = .ok ty) : t.type r' = .ok ty := by
  obtain ⟨env, next, s, u, next', hassume, hinfer, hty⟩ := Term.type_eq_ok_iff.1 ht
  exact Term.type_eq_ok_iff.2 ⟨env, next, s, u, next', hassume, h.infer_eq_ok hinfer, hty⟩

end Extends

/-! ## Additions -/

/-- The registry after a declaration was added. A rejected declaration leaves it as it was. -/
def after (r : Registry) (d : DataDecl) : Registry :=
  match r.add d with
  | .ok r' => r'
  | .error _ => r

/-- The registry after several declarations were added, accepted or not. -/
def afterAll (r : Registry) (ds : List DataDecl) : Registry := ds.foldl after r

theorem after_eq_of_error {fault : Inconsistency} (h : r.add d = .error fault) :
    r.after d = r := by
  rw [after, h]

theorem Reachable.after (hr : r.Reachable) (d : DataDecl) : (r.after d).Reachable := by
  rw [Registry.after]
  split
  · next hadd => exact hr.add hadd
  · exact hr

theorem extends_after (r : Registry) (d : DataDecl) : (r.after d).Extends r := by
  rw [after]
  split
  · next hadd =>
    rcases add_cases hadd with ⟨rfl, -⟩ | ⟨rfl, -⟩
    · exact List.prefix_rfl
    · exact List.prefix_append _ _
  · exact List.prefix_rfl

theorem Reachable.afterAll (hr : r.Reachable) (ds : List DataDecl) :
    (r.afterAll ds).Reachable := by
  induction ds generalizing r with
  | nil => exact hr
  | cons d ds ih => exact ih (hr.after d)

theorem extends_afterAll (r : Registry) (ds : List DataDecl) : (r.afterAll ds).Extends r := by
  induction ds generalizing r with
  | nil => exact List.prefix_rfl
  | cons d ds ih => exact (extends_after r d).trans (ih (r.after d))

/-- The constants whose types come from the declaration of a constructor. -/
def constantsOf (constructor : String) : List Constant :=
  [.constructor constructor, .primitive (.isConstructor constructor),
    .primitive (.argOf constructor)]

/-! ## The invariant -/

/-- What holds of a registry after any additions. -/
structure Invariant (r : Registry) : Prop where
  /-- Names are distinct, and fields are made of parameters and of known types. -/
  consistent : r.Consistent
  /-- The owner of a constructor is the declaration that lists it. -/
  owner_iff : ∀ name d c, r.owner? name = some (d, c)
    ↔ d ∈ r.decls ∧ c ∈ d.constructors ∧ c.name = name
  /-- The index of constructors agrees with the declarations. -/
  owner_eq_index : ∀ name, r.owner? name = (r.ownerIndex name).bind fun i =>
    r.decls[i]?.bind fun d => (d.constructor? name).map (d, ·)
  /-- The type of a constructor is made of the variables that it is quantified over. -/
  closed : ∀ name t, r.constructorType? name = some t →
    (∀ field ∈ t.fields, ∀ v ∈ field.vars, v ∈ t.vars) ∧ ∀ v ∈ t.result.vars, v ∈ t.vars
  /-- A rejected declaration leaves the registry as it was. -/
  rejected : ∀ d fault, r.add d = .error fault → r.after d = r
  /-- A declaration that is there is accepted and changes nothing. -/
  repeated : ∀ d ∈ r.decls, r.add d = .ok r

/-- What of a registry is found in a later one. -/
structure KeptBy (r r' : Registry) : Prop where
  /-- Declarations are only appended. -/
  declared : r'.Extends r
  /-- A constructor keeps its owner. -/
  owner : ∀ name x, r.owner? name = some x → r'.owner? name = some x
  /-- A constructor that has an owner keeps its type. -/
  constructorType : ∀ name x, r.owner? name = some x →
    r'.constructorType? name = r.constructorType? name
  /-- The constants of a constructor that has an owner keep their types. -/
  signature : ∀ name x, r.owner? name = some x → ∀ c ∈ constantsOf name,
    c.signature r' = c.signature r
  /-- A term that has a type keeps it. -/
  type : ∀ t ty, Term.type r t = .ok ty → Term.type r' t = .ok ty

theorem Reachable.invariant (hr : r.Reachable) : r.Invariant where
  consistent := consistent_of_reachable hr
  owner_iff _ _ _ := (consistent_of_reachable hr).owner?_eq_some_iff
  owner_eq_index name := (owner?_eq_ownerIndex hr name).2
  closed _ _ := mem_vars_of_constructorType? hr
  rejected _ _ := after_eq_of_error
  repeated _ := (consistent_of_reachable hr).add_eq_self

theorem Extends.keptBy (h : r'.Extends r) : r.KeptBy r' where
  declared := h
  owner _ _ := h.owner?_eq_some
  constructorType name x howner := by
    rw [constructorType?, constructorType?, howner, h.owner?_eq_some howner]
  signature name x howner c hc := by
    have hsome : ∃ t, r.constructorType name = .ok t := by
      rw [Registry.constructorType, constructorType?, howner]
      exact ⟨_, rfl⟩
    obtain ⟨t, ht⟩ := hsome
    have ht' := h.constructorType_eq_ok ht
    simp only [constantsOf, List.mem_cons, List.not_mem_nil, or_false] at hc
    rcases hc with rfl | rfl | rfl <;>
      simp only [Constant.signature, Primitive.signature, ht, ht']
  type _ _ := h.type_eq_ok

/-- After any additions, accepted or not, the invariant of the registry holds, and any additions
after those, accepted or not, keep all that has been declared, with its types. -/
theorem invariant_afterAll (added later : List DataDecl) :
    (empty.afterAll added).Invariant
      ∧ (empty.afterAll added).KeptBy ((empty.afterAll added).afterAll later) :=
  ⟨(Reachable.empty.afterAll added).invariant, (extends_afterAll _ later).keptBy⟩

/-- A value that may be missing keeps its type after a declaration that wants its constructor, and
is rejected, and one that uses its type, and is accepted. -/
theorem invariant_afterAll_optional :
    let added : List DataDecl := optional.decls ++ [⟨"Option", [], []⟩]
    let later : List DataDecl :=
      [⟨"Maybe", ["a"], [⟨"Some", [.var "a"]⟩]⟩,
        ⟨"Box", [], [⟨"Box", [.con "Option" [.con "Int" []]]⟩]⟩]
    (((empty.afterAll added).afterAll later).size = 2)
      ∧ ((empty.afterAll added).afterAll later).owner? "Some"
        = some (⟨"Option", ["a"], [⟨"None", []⟩, ⟨"Some", [.var "a"]⟩]⟩, ⟨"Some", [.var "a"]⟩)
      ∧ ((Term.const (.constructor "Some")).app (.literal (.int 1))).type
          ((empty.afterAll added).afterAll later) = .ok (.data "Option" [.int]) := by
  intro added later
  have hkept := (invariant_afterAll added later).2
  exact ⟨by cbv, hkept.owner _ _ (by cbv), hkept.type _ _ (by cbv)⟩

end Registry

end Clausal
