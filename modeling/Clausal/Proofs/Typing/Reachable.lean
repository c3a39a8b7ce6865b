import Clausal.Proofs.Typing.Instance
import Clausal.Typing.Signature

/-!
# Reachable registries

The registries that declarations lead to, one after the other, from the registry without data
types. A declaration is accepted only if its fields use no other type variables than its
parameters (`fieldsBound_add`), and so every constant of a reachable registry has a type that is
quantified over all of its variables.

## Main results

* `Registry.fieldsBound_of_reachable`: the fields of a reachable registry are over the parameters
  of their declarations;
* `Registry.isClosed_of_signature`: the scheme of a constant leaves no variable free;
* `Registry.constructorType_spec`: a constructor builds its data type applied to its parameters.
-/

namespace Clausal

/-- The parameters of a declaration as type variables. -/
def DataDecl.typeVars (d : DataDecl) : List TypeVar :=
  d.params.zipIdx.map fun (param, i) => ⟨i, some param⟩

/-- A parameter becomes one of the type variables of the declaration. -/
theorem DataDecl.mem_typeVars {d : DataDecl} {name : String} (h : name ∈ d.params) :
    ⟨d.params.idxOf name, some name⟩ ∈ d.typeVars := by
  have hlt := List.idxOf_lt_length_of_mem h
  refine List.mem_map.2 ⟨(name, d.params.idxOf name), ?_, rfl⟩
  rw [List.mem_zipIdx_iff_getElem?, List.getElem?_eq_getElem hlt, List.getElem_idxOf hlt]

namespace Registry

/-- The registries that accepted declarations lead to. A rejected one leaves the registry as it
is. -/
inductive Reachable : Registry → Prop
  | empty : Reachable .empty
  | add {r r' : Registry} {d : DataDecl} : Reachable r → r.add d = .ok r' → Reachable r'

/-- The registry of one declaration, of a type of values that may be missing. -/
def optional : Registry :=
  ⟨[⟨"Option", ["a"], [⟨"None", []⟩, ⟨"Some", [.var "a"]⟩]⟩]⟩

theorem reachable_optional : optional.Reachable :=
  .add (d := ⟨"Option", ["a"], [⟨"None", []⟩, ⟨"Some", [.var "a"]⟩]⟩) .empty rfl

/-- The fields of a declaration have no other variables than its parameters. -/
def FieldsBound (d : DataDecl) : Prop :=
  ∀ c ∈ d.constructors, ∀ field ∈ Ty.ofFields d.params c.fields, ∀ v ∈ field.vars, v ∈ d.typeVars

/-- A built-in type has no variables, any other those of its arguments. -/
theorem mem_vars_of_ofField_con {params : List String} {name : String} {args : List TypeExpr}
    {v : TypeVar} (hv : v ∈ (Ty.ofField params (.con name args)).vars) :
    ∃ field ∈ Ty.ofFields params args, v ∈ field.vars := by
  rw [Ty.ofField.eq_def] at hv
  dsimp only at hv
  split at hv
  · simp at hv
  · exact Ty.mem_vars_con.1 hv

mutual

/-- A field without a fault has no other variables than the parameters. -/
theorem mem_typeVars_of_fieldFault {r : Registry} {d : DataDecl} {v : TypeVar} (t : TypeExpr)
    (h : r.fieldFault? d t = none) (hv : v ∈ (Ty.ofField d.params t).vars) : v ∈ d.typeVars := by
  match t with
  | .var name =>
    rw [fieldFault?] at h
    split at h
    · next hname =>
      rw [Ty.ofField, Ty.mem_vars_var] at hv
      rw [hv]
      exact DataDecl.mem_typeVars (by simpa using hname)
    · contradiction
  | .con name args =>
    -- the faults of the arguments are looked for last, whether or not the type is known
    have hargs : r.fieldsFault? d args = none := by
      rw [fieldFault?] at h
      split at h
      · contradiction
      · split at h
        · exact h
        · contradiction
    obtain ⟨field, hfield, hv⟩ := mem_vars_of_ofField_con hv
    exact mem_typeVars_of_fieldsFault args hargs field hfield hv
  | .tuple elements =>
    rw [fieldFault?] at h
    rw [Ty.ofField, Ty.vars, Ty.varsList_eq_flatMap, List.mem_flatMap] at hv
    obtain ⟨field, hfield, hv⟩ := hv
    exact mem_typeVars_of_fieldsFault elements h field hfield hv
  | .func source target =>
    rw [fieldFault?, Option.or_eq_none_iff] at h
    rw [Ty.ofField, Ty.mem_vars_con] at hv
    obtain ⟨part, hpart, hv⟩ := hv
    simp only [List.mem_cons, List.not_mem_nil, or_false] at hpart
    rcases hpart with rfl | rfl
    · exact mem_typeVars_of_fieldFault source h.1 hv
    · exact mem_typeVars_of_fieldFault target h.2 hv

/-- The same for several fields. -/
theorem mem_typeVars_of_fieldsFault {r : Registry} {d : DataDecl} {v : TypeVar}
    (ts : List TypeExpr) (h : r.fieldsFault? d ts = none) (field : Ty)
    (hfield : field ∈ Ty.ofFields d.params ts) (hv : v ∈ field.vars) : v ∈ d.typeVars := by
  match ts with
  | [] => simp [Ty.ofFields] at hfield
  | t :: ts =>
    rw [fieldsFault?, Option.or_eq_none_iff] at h
    rw [Ty.ofFields] at hfield
    rcases List.mem_cons.1 hfield with rfl | hfield
    · exact mem_typeVars_of_fieldFault t h.1 hv
    · exact mem_typeVars_of_fieldsFault ts h.2 field hfield hv

end

/-- Of a list of constructors without a fault, none has a fault in its fields. -/
theorem fieldsFault_of_constructorsFault {r : Registry} {d : DataDecl} {before : List String}
    {constructors : List ConstructorDecl} (h : r.constructorsFault? d before constructors = none) :
    ∀ c ∈ constructors, r.fieldsFault? d c.fields = none := by
  induction constructors generalizing before with
  | nil => simp
  | cons c cs ih =>
    rw [constructorsFault?, Option.or_eq_none_iff] at h
    intro c' hc'
    rcases List.mem_cons.1 hc' with rfl | hc'
    · have hfault := h.1
      rw [constructorFault?] at hfault
      split at hfault
      · contradiction
      · split at hfault
        · contradiction
        · exact Option.map_eq_none_iff.1 hfault
    · exact ih h.2 c' hc'

/-- What adding a declaration does: nothing if it is there, otherwise it comes last. -/
theorem add_cases {r r' : Registry} {d : DataDecl} (h : r.add d = .ok r') :
    r' = r ∧ d ∈ r.decls
      ∨ r' = ⟨r.decls ++ [d]⟩ ∧ r.declaration? d.name = none ∧ r.fault? d = none := by
  rw [add] at h
  split at h
  · next known hknown =>
    split at h
    · next heq =>
      obtain rfl := Except.ok.inj h
      exact .inl ⟨rfl, heq ▸ List.mem_of_find?_eq_some hknown⟩
    · contradiction
  · next hname =>
    split at h
    · contradiction
    · next hfault => exact .inr ⟨(Except.ok.inj h).symm, hname, hfault⟩

/-- Adding a declaration keeps the fields over the parameters. -/
theorem fieldsBound_add {r r' : Registry} {d : DataDecl} (h : r.add d = .ok r')
    (hr : ∀ known ∈ r.decls, FieldsBound known) : ∀ known ∈ r'.decls, FieldsBound known := by
  rcases add_cases h with ⟨rfl, -⟩ | ⟨rfl, -, hfault⟩
  · exact hr
  · intro known hknown
    rcases List.mem_append.1 hknown with hknown | hknown
    · exact hr known hknown
    · obtain rfl := List.mem_singleton.1 hknown
      -- the checks of the declaration end with those of its constructors
      rw [fault?] at hfault
      split at hfault
      · contradiction
      · split at hfault
        · contradiction
        · intro c hc field hfield v hv
          exact mem_typeVars_of_fieldsFault c.fields
            (fieldsFault_of_constructorsFault hfault c hc) field hfield hv

/-- The fields of a reachable registry are over the parameters of their declarations. -/
theorem fieldsBound_of_reachable {r : Registry} (hr : r.Reachable) :
    ∀ d ∈ r.decls, FieldsBound d := by
  induction hr with
  | empty => simp [Registry.empty]
  | add _ hadd ih => exact fieldsBound_add hadd ih

/-! ## The types of constants -/

/-- The type of a constructor: its data type applied to the parameters is the result, and the
fields have no other variables. -/
theorem constructorType_spec {r : Registry} (hr : r.Reachable) {constructor : String}
    {t : ConstructorType} (h : r.constructorType constructor = .ok t) :
    (∃ name, t.result = .data name (t.vars.map .var))
      ∧ ∀ field ∈ t.fields, ∀ v ∈ field.vars, v ∈ t.vars := by
  rw [constructorType] at h
  split at h
  · next t' ht' =>
    obtain rfl := Except.ok.inj h
    obtain ⟨⟨d, c⟩, howner, rfl⟩ := Option.map_eq_some_iff.1 ht'
    obtain ⟨d', hd', hc⟩ := List.exists_of_findSome?_eq_some howner
    obtain ⟨c', hc', heq⟩ := Option.map_eq_some_iff.1 hc
    obtain ⟨rfl, rfl⟩ := Prod.mk.inj heq
    exact ⟨⟨d'.name, rfl⟩, fieldsBound_of_reachable hr d' hd' c' (List.mem_of_find?_eq_some hc')⟩
  · contradiction

end Registry

/-! ## Schemes -/

namespace Scheme

/-- A type in which a scheme has images for its variables, and for no others. -/
def Instance (scheme : Scheme) (t : Ty) : Prop :=
  ∃ image, (∀ v, v ∉ scheme.vars → image v = .var v) ∧ scheme.type.bind image = t

/-- A scheme that leaves no variable free. -/
def IsClosed (scheme : Scheme) : Prop := ∀ v ∈ scheme.type.vars, v ∈ scheme.vars

theorem isClosed_closed (t : Ty) : (closed t).IsClosed :=
  fun _ hv => Ty.mem_distinctVars.2 hv

/-- Of a scheme that leaves no variable free, every image of the type is an instance. -/
theorem IsClosed.instance_iff {scheme : Scheme} (h : scheme.IsClosed) {t : Ty} :
    scheme.Instance t ↔ scheme.type.Generalizes t := by
  constructor
  · rintro ⟨image, -, rfl⟩
    exact Ty.generalizes_bind scheme.type image
  · intro h'
    obtain ⟨image, rfl⟩ := Ty.generalizes_iff_exists_bind.1 h'
    -- outside of the quantified variables the image is never read
    refine ⟨fun v => if v ∈ scheme.vars then image v else .var v, fun v hv => if_neg hv, ?_⟩
    exact Ty.bind_congr fun v hv => if_pos (h v hv)

end Scheme

namespace Ty

theorem mem_vars_arrow {source target : Ty} {v : TypeVar} :
    v ∈ (Ty.arrow source target).vars ↔ v ∈ source.vars ∨ v ∈ target.vars := by
  simp

theorem mem_vars_arrows {params : List Ty} {result : Ty} {v : TypeVar} :
    v ∈ (arrows params result).vars ↔ (∃ param ∈ params, v ∈ param.vars) ∨ v ∈ result.vars := by
  induction params with
  | nil => simp
  | cons param params ih => rw [arrows_cons, mem_vars_arrow, ih]; simp [or_assoc]

/-- A single field is packed as it is, any other number of them as a tuple. -/
theorem packed_cases (fields : List Ty) :
    (∃ field, fields = [field] ∧ packed fields = field)
      ∨ fields.length ≠ 1 ∧ packed fields = .tuple fields := by
  match fields with
  | [] => exact .inr ⟨by simp, rfl⟩
  | [field] => exact .inl ⟨field, rfl, rfl⟩
  | _ :: _ :: _ => exact .inr ⟨by simp, rfl⟩

theorem mem_vars_packed {fields : List Ty} {v : TypeVar} :
    v ∈ (packed fields).vars ↔ ∃ field ∈ fields, v ∈ field.vars := by
  rcases packed_cases fields with ⟨field, rfl, hpacked⟩ | ⟨-, hpacked⟩
  · rw [hpacked]; simp
  · rw [hpacked]; exact mem_vars_con

end Ty

namespace Registry

/-- The scheme of a constant that belongs to a constructor comes from the type of the
constructor. -/
theorem bind_constructorType_eq_ok {r : Registry} {name : String} {scheme : Scheme}
    {build : ConstructorType → Scheme}
    (h : (r.constructorType name).bind (fun t => .ok (build t)) = .ok scheme) :
    ∃ t, r.constructorType name = .ok t ∧ build t = scheme := by
  match ht : r.constructorType name with
  | .ok t =>
    rw [ht] at h
    exact ⟨t, rfl, Except.ok.inj h⟩
  | .error _ =>
    rw [ht] at h
    contradiction

/-- The scheme of a constant of a reachable registry leaves no variable free. -/
theorem isClosed_of_signature {r : Registry} (hr : r.Reachable) {c : Constant} {scheme : Scheme}
    (h : c.signature r = .ok scheme) : scheme.IsClosed := by
  -- the parts of a constructor's type are over the parameters of its data type
  have hparts {name : String} {t : ConstructorType} (ht : r.constructorType name = .ok t)
      {v : TypeVar} (hv : (∃ field ∈ t.fields, v ∈ field.vars) ∨ v ∈ t.result.vars) :
      v ∈ t.vars := by
    obtain ⟨⟨_, hresult⟩, hfields⟩ := constructorType_spec hr ht
    rcases hv with ⟨field, hfield, hv⟩ | hv
    · exact hfields field hfield v hv
    · rw [hresult, Ty.mem_vars_con] at hv
      obtain ⟨_, hparam, hv⟩ := hv
      obtain ⟨w, hw, rfl⟩ := List.mem_map.1 hparam
      rwa [Ty.mem_vars_var.1 hv]
  match c with
  | .literal value =>
    obtain rfl := Except.ok.inj h
    cases value <;> simp [Scheme.IsClosed, Literal.type]
  | .constructor name =>
    obtain ⟨t, ht, rfl⟩ := bind_constructorType_eq_ok h
    exact fun v hv => hparts ht (Ty.mem_vars_arrows.1 hv)
  | .primitive (.isConstructor name) =>
    obtain ⟨t, ht, rfl⟩ := bind_constructorType_eq_ok h
    intro v hv
    rcases Ty.mem_vars_arrow.1 hv with hv | hv
    · exact hparts ht (.inr hv)
    · simp at hv
  | .primitive (.argOf name) =>
    obtain ⟨t, ht, rfl⟩ := bind_constructorType_eq_ok h
    intro v hv
    rcases Ty.mem_vars_arrow.1 hv with hv | hv
    · exact hparts ht (.inr hv)
    · exact hparts ht (.inl (Ty.mem_vars_packed.1 hv))
  | .primitive (.select size index) =>
    rw [Constant.signature, Primitive.signature] at h
    split at h
    · obtain rfl := Except.ok.inj h
      exact Scheme.isClosed_closed _
    · contradiction
  | .primitive (.operator _) | .primitive .branch | .primitive .fix | .primitive .bot
  | .primitive (.tuple _) | .primitive (.isTuple _) | .primitive (.isLiteral _) =>
    obtain rfl := Except.ok.inj h
    exact Scheme.isClosed_closed _

end Registry

end Clausal
