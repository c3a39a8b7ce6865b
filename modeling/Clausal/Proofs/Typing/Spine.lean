import Clausal.Proofs.Typing.HasType

/-!
# Types of constants applied to arguments

What the type of a spine with a constant at its head says of the arguments. The signature of the
constant and the type of the spine are both functions of several arguments, and where the results
are no functions the arguments correspond one by one.

## Main results

* `hasType_closed_iff`: the types of a constant whose signature is closed;
* `HasType.tuple_components`: the components of a tuple have the types that its type shows;
* `HasType.data_fields`: the fields of data have the types of its declaration under one image.
-/

namespace Clausal

namespace Ty

/-- A type that is built by another constructor than that of functions. -/
def IsData (t : Ty) : Prop := ∃ c args, t = .con c args ∧ c ≠ .arrow

theorem arrow_inj {source source' target target' : Ty} :
    arrow source target = arrow source' target' ↔ source = source' ∧ target = target' := by
  simp

theorem bind_arrow (image : TypeVar → Ty) (source target : Ty) :
    (arrow source target).bind image = arrow (source.bind image) (target.bind image) := by
  rw [bind_con, List.map_cons, List.map_singleton]

theorem IsData.ne_arrow {t : Ty} (h : t.IsData) (source target : Ty) :
    t ≠ .arrow source target := by
  obtain ⟨c, args, rfl, hc⟩ := h
  intro heq
  exact hc (con.inj heq).1

theorem IsData.bind {t : Ty} (h : t.IsData) (image : TypeVar → Ty) : (t.bind image).IsData := by
  obtain ⟨c, args, rfl, hc⟩ := h
  exact ⟨c, args.map (Ty.bind image), bind_con image c args, hc⟩

/-- Functions of as many arguments are equal if their arguments and results are. -/
theorem arrows_inj {params params' : List Ty} {result result' : Ty}
    (hlength : params.length = params'.length)
    (h : arrows params result = arrows params' result') :
    params = params' ∧ result = result' := by
  induction params generalizing params' with
  | nil =>
    obtain rfl := List.length_eq_zero_iff.1 hlength.symm
    exact ⟨rfl, h⟩
  | cons param params ih =>
    cases params' with
    | nil => contradiction
    | cons param' params' =>
      rw [arrows_cons, arrows_cons, arrow_inj] at h
      obtain ⟨rfl, hresult⟩ := ih (Nat.succ.inj hlength) h.2
      exact ⟨by rw [h.1], hresult⟩

/-- A function whose result is no function has at least the arguments that another form of it
has. -/
theorem IsData.exists_eq_append {params params' : List Ty} {result result' : Ty}
    (hresult : result.IsData) (h : arrows params result = arrows params' result') :
    ∃ rest, params = params' ++ rest ∧ result' = arrows rest result := by
  induction params' generalizing params with
  | nil => exact ⟨params, rfl, h.symm⟩
  | cons param' params' ih =>
    cases params with
    | nil => exact absurd h (hresult.ne_arrow _ _)
    | cons param params =>
      rw [arrows_cons, arrows_cons, arrow_inj] at h
      obtain ⟨rest, rfl, hrest⟩ := ih h.2
      exact ⟨rest, by rw [h.1, List.cons_append], hrest⟩

/-- Functions whose results are no functions have the same arguments if they are equal. -/
theorem IsData.arrows_inj {params params' : List Ty} {result result' : Ty}
    (hresult : result.IsData) (hresult' : result'.IsData)
    (h : arrows params result = arrows params' result') :
    params = params' ∧ result = result' := by
  obtain ⟨rest, rfl, hrest⟩ := hresult.exists_eq_append h
  cases rest with
  | nil => exact ⟨List.append_nil _, hrest.symm⟩
  | cons param rest => exact absurd hrest (hresult'.ne_arrow _ _)

/-- A type that is no function is one without arguments. -/
theorem IsData.eq_nil_of_arrows_eq {params : List Ty} {result data : Ty} (hdata : data.IsData)
    (h : arrows params result = data) : params = [] := by
  obtain ⟨rest, hrest, -⟩ := hdata.exists_eq_append (show arrows [] data = _ from h.symm)
  exact (List.append_eq_nil_iff.1 hrest.symm).1

/-- A function of more arguments than another form of it shows is a function after those. -/
theorem exists_arrow_of_length_lt {params params' : List Ty} {result result' : Ty}
    (h : arrows params result = arrows params' result') (hlt : params'.length < params.length) :
    ∃ source target, result' = arrow source target := by
  induction params' generalizing params with
  | nil =>
    cases params with
    | nil => contradiction
    | cons param params => exact ⟨param, arrows params result, h.symm⟩
  | cons param' params' ih =>
    cases params with
    | nil => contradiction
    | cons param params =>
      rw [arrows_cons, arrows_cons, arrow_inj] at h
      exact ih h.2 (Nat.lt_of_succ_lt_succ hlt)

@[simp] theorem length_components (size : Nat) : (components size).length = size := by
  rw [components, List.length_map, List.length_range]

/-- A component of a tuple type is the variable with its number. -/
theorem getElem?_components {size i : Nat} (h : i < size) :
    (components size)[i]? = some (numbered i) := by
  rw [components, List.getElem?_map, List.getElem?_range h, Option.map_some]

end Ty

/-! ## Operators -/

namespace Operator

/-- The type of each operand of an operator. -/
def operand : Operator → Ty
  | plus | minus | mult | div | mod | negate => .int
  | fplus | fminus | fmult | fdiv => .float
  | eq | neq | lt | leq | gt | geq => .numbered 0
  | and | or | not => .bool

/-- The type of the result of an operator. -/
def result : Operator → Ty
  | plus | minus | mult | div | mod | negate => .int
  | fplus | fminus | fmult | fdiv => .float
  | _ => .bool

/-- The type of an operator on two operands, in parts. -/
theorem type_of_arity_two {op : Operator} (h : op.arity = 2) :
    op.type = .arrows [op.operand, op.operand] op.result := by
  cases op <;> first | rfl | contradiction

/-- The type of an operator on one operand, in parts. -/
theorem type_of_arity_one {op : Operator} (h : op.arity = 1) :
    op.type = .arrow op.operand op.result := by
  cases op <;> first | rfl | contradiction

/-- A result is no function. -/
theorem isData_result (op : Operator) : op.result.IsData := by
  cases op <;> exact ⟨_, _, rfl, TyCon.noConfusion⟩

/-- The type of a result has no variables. -/
@[simp] theorem bind_result (op : Operator) (image : TypeVar → Ty) :
    op.result.bind image = op.result := by
  cases op <;> rfl

end Operator

/-! ## Related lists -/

section

variable {α β : Type} {R : α → β → Prop} {as : List α} {bs : List β} {a : α} {i : Nat}

/-- What an element of one of two related lists is related to. -/
theorem exists_related_getElem? (h : List.Forall₂ R as bs) (ha : as[i]? = some a) :
    ∃ b, bs[i]? = some b ∧ R a b := by
  induction h generalizing i with
  | nil => contradiction
  | cons hrelated _ ih =>
    cases i with
    | zero => exact ⟨_, rfl, Option.some.inj ha ▸ hrelated⟩
    | succ i => exact ih ha

/-- An element may be replaced by one that is related to as much. -/
theorem forall₂_set {a' : α} (h : List.Forall₂ R as bs) (ha : as[i]? = some a)
    (ha' : ∀ b, R a b → R a' b) : List.Forall₂ R (as.set i a') bs := by
  induction h generalizing i with
  | nil => contradiction
  | cons hrelated hrest ih =>
    cases i with
    | zero => exact .cons (ha' _ (Option.some.inj ha ▸ hrelated)) hrest
    | succ i => exact .cons hrelated (ih ha)

end

/-! ## Constants -/

section

variable {r : Registry} {env : String → Ty} {ty : Ty}

/-- A constant whose signature is closed has all the instances of its type. -/
theorem hasType_closed_iff {c : Constant} {t : Ty} (h : c.signature r = .ok (.closed t)) :
    HasType r env (.const c) ty ↔ ∃ image, t.bind image = ty := by
  have hinstance : (Scheme.closed t).Instance ty ↔ t.Generalizes ty :=
    (Scheme.isClosed_closed t).instance_iff
  rw [hasType_const_iff, ← Ty.generalizes_iff_exists_bind, ← hinstance]
  constructor
  · rintro ⟨scheme, hscheme, hinstance⟩
    rw [h] at hscheme
    rwa [Except.ok.inj hscheme]
  · exact fun hinstance => ⟨_, h, hinstance⟩

/-- A literal has the type of its kind. -/
theorem hasType_literal_iff {value : Literal} :
    HasType r env (.literal value) ty ↔ ty = value.type := by
  have hscheme : (Constant.literal value).signature r = .ok ⟨[], value.type⟩ := rfl
  have hbind (image : TypeVar → Ty) : value.type.bind image = value.type := by
    cases value <;> rfl
  rw [Term.literal, hasType_const_iff, hscheme]
  constructor
  · rintro ⟨_, ⟨⟩, image, -, rfl⟩
    exact hbind image
  · rintro rfl
    exact ⟨_, rfl, .var, fun _ _ => rfl, hbind _⟩

/-- The components of a tuple have the types that its type shows. -/
theorem HasType.tuple_components {size : Nat} {components : List Term} {elements : List Ty}
    (h : HasType r env ((Term.primitive (.tuple size)).applyAll components) (.tuple elements)) :
    List.Forall₂ (HasType r env) components elements := by
  obtain ⟨params, hhead, hcomponents⟩ := hasType_applyAll_iff.1 h
  obtain ⟨image, hbind⟩ := (hasType_closed_iff rfl).1 hhead
  rw [Ty.bind_arrows, Ty.bind_con] at hbind
  -- neither result is a function, so as many components are there as the type shows
  have hdata (ts : List Ty) : (Ty.tuple ts).IsData := ⟨_, _, rfl, TyCon.noConfusion⟩
  obtain ⟨rfl, helements⟩ := (hdata _).arrows_inj (hdata _) hbind
  rwa [← (Ty.con.inj helements).2]

/-- A tuple of typed components is typed. -/
theorem hasType_tuple {components : List Term} {elements : List Ty}
    (h : List.Forall₂ (HasType r env) components elements) :
    HasType r env ((Term.primitive (.tuple components.length)).applyAll components)
      (.tuple elements) := by
  -- the variable with a number has the type of the component at that place for its image
  refine hasType_applyAll_iff.2 ⟨elements, (hasType_closed_iff rfl).2
    ⟨fun v => elements[v.id]?.getD .int, ?_⟩, h⟩
  have hbind : (Ty.components components.length).map
      (Ty.bind fun v => elements[v.id]?.getD .int) = elements := by
    refine List.ext_getElem? fun i => ?_
    rw [List.getElem?_map]
    by_cases hi : i < components.length
    · have hi' : i < elements.length := h.length_eq ▸ hi
      rw [Ty.getElem?_components hi, Option.map_some, Ty.numbered, Ty.bind_var, TypeVar.numbered,
        List.getElem?_eq_getElem hi', Option.getD_some]
    · rw [List.getElem?_eq_none (by rw [Ty.length_components]; exact Nat.le_of_not_lt hi),
        List.getElem?_eq_none (by rw [← h.length_eq]; exact Nat.le_of_not_lt hi), Option.map_none]
  rw [Ty.bind_arrows, Ty.bind_con, hbind]

/-- The types of a constructor are the instances of what its declaration says. -/
theorem hasType_constructor_cases {name : String}
    (h : HasType r env (.const (.constructor name)) ty) :
    ∃ t image, r.constructorType name = .ok t
      ∧ (Ty.arrows t.fields t.result).bind image = ty := by
  obtain ⟨scheme, hscheme, image, -, hbind⟩ := hasType_const_iff.1 h
  obtain ⟨t, ht, rfl⟩ := Registry.bind_constructorType_eq_ok hscheme
  exact ⟨t, image, ht, hbind⟩

/-- The fields of data have the types of its declaration under the image that its type shows. -/
theorem HasType.data_fields (hr : r.Reachable) {name : String} {fields : List Term}
    {t : ConstructorType} {image : TypeVar → Ty} (ht : r.constructorType name = .ok t)
    (h : HasType r env ((Term.const (.constructor name)).applyAll fields) (t.result.bind image)) :
    List.Forall₂ (HasType r env) fields (t.fields.map (Ty.bind image)) := by
  obtain ⟨params, hhead, hfields⟩ := hasType_applyAll_iff.1 h
  obtain ⟨t', image', ht', hbind⟩ := hasType_constructor_cases hhead
  obtain rfl : t' = t := Except.ok.inj (ht'.symm.trans ht)
  obtain ⟨⟨dataName, hresult⟩, hvars⟩ := Registry.constructorType_spec hr ht
  have hdata : t'.result.IsData := ⟨_, _, hresult, TyCon.noConfusion⟩
  rw [Ty.bind_arrows] at hbind
  obtain ⟨rfl, heq⟩ := (hdata.bind image').arrows_inj (hdata.bind image) hbind
  -- the result shows the images of all parameters, and the fields have no other variables
  have hagree := Ty.bind_eq_bind_iff.1 heq
  have hmap : t'.fields.map (Ty.bind image') = t'.fields.map (Ty.bind image) := by
    refine List.map_congr_left fun field hfield => Ty.bind_congr fun v hv => hagree v ?_
    rw [hresult, Ty.mem_vars_con]
    exact ⟨.var v, List.mem_map_of_mem (hvars field hfield v hv), Ty.mem_vars_var.2 rfl⟩
  rwa [← hmap]

/-! ## Primitives -/

/-- The types of an operator applied to two operands. -/
theorem HasType.binary_operands {op : Operator} (hop : op.arity = 2) {left right : Term}
    (h : HasType r env ((Term.primitive (.operator op)).applyAll [left, right]) ty) :
    ty = op.result ∧ ∃ image, HasType r env left (op.operand.bind image)
      ∧ HasType r env right (op.operand.bind image) := by
  obtain ⟨params, hhead, hargs⟩ := hasType_applyAll_iff.1 h
  obtain ⟨image, hbind⟩ := (hasType_closed_iff rfl).1 hhead
  rw [Operator.type_of_arity_two hop, Ty.bind_arrows] at hbind
  obtain ⟨rfl, rfl⟩ := Ty.arrows_inj hargs.length_eq hbind
  cases hargs with
  | cons hleft hargs =>
    cases hargs with
    | cons hright _ => exact ⟨op.bind_result image, image, hleft, hright⟩

/-- The types of a primitive of one argument applied to it. -/
theorem hasType_primitive_app_iff {p : Primitive} {arg : Term} {source target : Ty}
    (hsignature : p.signature r = .ok (.closed (.arrow source target))) :
    HasType r env (.app (.primitive p) arg) ty
      ↔ ∃ image, HasType r env arg (source.bind image) ∧ target.bind image = ty := by
  rw [hasType_app_iff]
  constructor
  · rintro ⟨source', hhead, harg⟩
    obtain ⟨image, hbind⟩ := (hasType_closed_iff (c := .primitive p) hsignature).1 hhead
    rw [Ty.bind_arrow] at hbind
    obtain ⟨rfl, rfl⟩ := Ty.arrow_inj.1 hbind
    exact ⟨image, harg, rfl⟩
  · rintro ⟨image, harg, rfl⟩
    have hhead : HasType r env (.primitive p) (.arrow (source.bind image) (target.bind image)) :=
      (hasType_closed_iff (c := .primitive p) hsignature).2 ⟨image, Ty.bind_arrow image _ _⟩
    exact ⟨_, hhead, harg⟩

/-- The types of a test or projection of data applied to a value. -/
theorem HasType.inspected_data {p : Primitive} {name : String} {target : ConstructorType → Ty}
    {arg : Term}
    (hsignature : p.signature r = (r.constructorType name).bind fun t =>
      .ok ⟨t.vars, .arrow t.result (target t)⟩)
    (h : HasType r env (.app (.primitive p) arg) ty) :
    ∃ t image, r.constructorType name = .ok t ∧ HasType r env arg (t.result.bind image)
      ∧ ty = (target t).bind image := by
  obtain ⟨source, hhead, harg⟩ := hasType_app_iff.1 h
  obtain ⟨scheme, hscheme, image, -, hbind⟩ := hasType_const_iff.1 hhead
  rw [Constant.signature, hsignature] at hscheme
  obtain ⟨t, ht, rfl⟩ := Registry.bind_constructorType_eq_ok hscheme
  rw [Ty.bind_arrow] at hbind
  obtain ⟨rfl, rfl⟩ := Ty.arrow_inj.1 hbind
  exact ⟨t, image, ht, harg, rfl⟩

end

end Clausal
