import Clausal.Proofs.Delta.Rule
import Clausal.Proofs.Typing.Spine

/-!
# Canonical forms

The shapes that an evaluated term of a type may have: where a type is built by a constructor, its
evaluated terms are built accordingly. A data constructor has the shape of data also before all
of its fields are there; its type is that of a function then.

## Main results

* `HasType.canonical_literal`: an evaluated term of the type of a literal is one;
* `HasType.canonical_tuple`: an evaluated term of a tuple type is a tuple of that size;
* `HasType.canonical_data`: an evaluated term of a data type is built by a constructor.
-/

namespace Clausal

variable {r : Registry} {env : String → Ty} {t : Term} {ty : Ty}

/-! ## Types of shapes -/

/-- A primitive has the type of a function of as many arguments as it waits for. -/
theorem Primitive.exists_signature_eq_arrows {p : Primitive} {scheme : Scheme} {count : Nat}
    (h : p.signature r = .ok scheme) (hcount : p = .tuple count ∨ p.arity? = some count) :
    ∃ params result, scheme.type = .arrows params result ∧ count ≤ params.length := by
  rcases hcount with rfl | harity
  · obtain rfl := Except.ok.inj h
    exact ⟨_, _, rfl, Nat.le_of_eq (Ty.length_components count).symm⟩
  cases p with
  | bot | tuple _ => contradiction
  | operator op =>
    obtain rfl := Except.ok.inj h
    obtain rfl := Option.some.inj harity
    rw [Scheme.closed]
    -- an operator has one operand or two, of the same type
    by_cases hop : op.arity = 2
    · exact ⟨_, _, Operator.type_of_arity_two hop, Nat.le_of_eq hop⟩
    · have hone : op.arity = 1 := Operator.arity_eq_one hop
      exact ⟨[op.operand], op.result, Operator.type_of_arity_one hone, Nat.le_of_eq hone⟩
  | branch =>
    obtain rfl := Except.ok.inj h
    obtain rfl := Option.some.inj harity
    exact ⟨_, _, rfl, by decide⟩
  | fix | isTuple _ | isLiteral _ =>
    obtain rfl := Except.ok.inj h
    obtain rfl := Option.some.inj harity
    exact ⟨[_], _, rfl, Nat.le_refl 1⟩
  | select size index =>
    obtain rfl := Option.some.inj harity
    rw [Primitive.signature] at h
    split at h
    · obtain rfl := Except.ok.inj h
      exact ⟨[_], _, rfl, Nat.le_refl 1⟩
    · contradiction
  | isConstructor name | argOf name =>
    obtain rfl := Option.some.inj harity
    obtain ⟨t, -, rfl⟩ := Registry.bind_constructorType_eq_ok h
    exact ⟨[_], _, rfl, Nat.le_refl 1⟩

/-- A function has the type of a function. -/
theorem HasType.of_shape_function (h : HasType r env t ty) (hshape : t.shape = .function) :
    ∃ source target, ty = .arrow source target := by
  rcases Term.function_cases hshape with ⟨param, body, rfl⟩ | ⟨p, count, ht, hlt, hcount⟩
  · obtain ⟨source, target, rfl, -⟩ := hasType_abs_iff.1 h
    exact ⟨source, target, rfl⟩
  · rw [ht] at h
    obtain ⟨params, hhead, hargs⟩ := hasType_applyAll_iff.1 h
    obtain ⟨scheme, hscheme, image, -, hbind⟩ := hasType_const_iff.1 hhead
    obtain ⟨params', result, htype, hle⟩ := Primitive.exists_signature_eq_arrows hscheme hcount
    rw [htype, Ty.bind_arrows] at hbind
    -- the signature shows more arguments than are there
    refine Ty.exists_arrow_of_length_lt hbind ?_
    rw [List.length_map, ← hargs.length_eq]
    exact Nat.lt_of_lt_of_le hlt hle

/-- A tuple has a tuple type. -/
theorem HasType.of_shape_tuple (h : HasType r env t ty) {size : Nat} {components : List Term}
    (hshape : t.shape = .tuple size components) : ∃ elements, ty = .tuple elements := by
  obtain ⟨rfl, rfl⟩ := Term.eq_of_shape_eq_tuple hshape
  obtain ⟨params, hhead, hcomponents⟩ := hasType_applyAll_iff.1 h
  obtain ⟨image, hbind⟩ := (hasType_closed_iff rfl).1 hhead
  rw [Ty.bind_arrows, Ty.bind_con] at hbind
  have hlength : ((Ty.components components.length).map (Ty.bind image)).length
      = params.length := by
    rw [List.length_map, Ty.length_components, hcomponents.length_eq]
  exact ⟨_, (Ty.arrows_inj hlength hbind).2.symm⟩

/-- Data has a data type, or that of a function as long as fields are missing. -/
theorem HasType.of_shape_data (hr : r.Reachable) (h : HasType r env t ty) {constructor : String}
    {fields : List Term} (hshape : t.shape = .data constructor fields) :
    (∃ source target, ty = .arrow source target) ∨ ∃ name args, ty = .data name args := by
  rw [Term.eq_of_shape_eq_data hshape] at h
  obtain ⟨params, hhead, -⟩ := hasType_applyAll_iff.1 h
  obtain ⟨type, image, htype, hbind⟩ := hasType_constructor_cases hhead
  obtain ⟨⟨name, hresult⟩, -⟩ := Registry.constructorType_spec hr htype
  rw [Ty.bind_arrows, hresult, Ty.bind_con] at hbind
  have hdata (args : List Ty) : (Ty.data name args).IsData := ⟨_, _, rfl, TyCon.noConfusion⟩
  -- what is left of the fields makes the type that of a function
  obtain ⟨rest, -, rfl⟩ := (hdata _).exists_eq_append hbind
  cases rest with
  | nil => exact .inr ⟨name, _, rfl⟩
  | cons param rest => exact .inl ⟨param, _, rfl⟩

theorem HasType.of_shape_literal (h : HasType r env t ty) {value : Literal}
    (hshape : t.shape = .literal value) : t = .literal value ∧ ty = value.type := by
  rw [Term.eq_of_shape_eq_literal hshape] at h ⊢
  exact ⟨rfl, hasType_literal_iff.1 h⟩

/-! ## Shapes of types -/

/-- The type constructors of a shape. A data constructor is a function as long as fields are
missing. -/
def Shape.Fits : Shape → TyCon → Prop
  | .literal value, c => value.type = .con c []
  | .tuple _ _, c => c = .tuple
  | .data _ _, c => c = .arrow ∨ ∃ name, c = .data name
  | .function, c => c = .arrow
  | .pending, _ => True

/-- The shape of a term fits the constructor of its type. -/
theorem HasType.shape_fits (hr : r.Reachable) {c : TyCon} {args : List Ty}
    (h : HasType r env t (.con c args)) : t.shape.Fits c := by
  cases hshape : t.shape with
  | literal value =>
    have hvalue := (h.of_shape_literal hshape).2
    have hargs : args = [] := by cases value <;> exact (Ty.con.inj hvalue).2
    rw [Shape.Fits, ← hvalue, hargs]
  | tuple size components =>
    obtain ⟨elements, hty⟩ := h.of_shape_tuple hshape
    exact (Ty.con.inj hty).1
  | data constructor fields =>
    rcases h.of_shape_data hr hshape with ⟨source, target, hty⟩ | ⟨name, args, hty⟩
    · exact .inl (Ty.con.inj hty).1
    · exact .inr ⟨name, (Ty.con.inj hty).1⟩
  | function =>
    obtain ⟨source, target, hty⟩ := h.of_shape_function hshape
    exact (Ty.con.inj hty).1
  | pending => trivial

/-- The type of a literal belongs to no other shape. -/
theorem Literal.exists_type_eq (value : Literal) :
    ∃ c, value.type = .con c [] ∧ c ≠ .tuple ∧ c ≠ .arrow ∧ ∀ name, c ≠ .data name := by
  cases value <;>
    exact ⟨_, rfl, TyCon.noConfusion, TyCon.noConfusion, fun _ => TyCon.noConfusion⟩

/-- An evaluated term of the type of a literal is a literal of that type. -/
theorem HasType.canonical_literal (hr : r.Reachable) {expected : Literal}
    (h : HasType r env t expected.type) (hshape : t.shape ≠ .pending) :
    ∃ value, t = .literal value ∧ value.type = expected.type := by
  obtain ⟨c, htype, htuple, harrow, hdata⟩ := expected.exists_type_eq
  rw [htype] at h ⊢
  have hfits := h.shape_fits hr
  cases heq : t.shape with
  | literal value => exact ⟨value, Term.eq_of_shape_eq_literal heq, by rwa [heq] at hfits⟩
  | tuple _ _ =>
    rw [heq] at hfits
    exact absurd hfits htuple
  | data _ _ =>
    rw [heq] at hfits
    rcases hfits with hfits | ⟨name, hfits⟩
    · exact absurd hfits harrow
    · exact absurd hfits (hdata name)
  | function =>
    rw [heq] at hfits
    exact absurd hfits harrow
  | pending => exact absurd heq hshape

/-- An evaluated term of a tuple type is a tuple of that size. -/
theorem HasType.canonical_tuple (hr : r.Reachable) {elements : List Ty}
    (h : HasType r env t (.tuple elements)) (hshape : t.shape ≠ .pending) :
    ∃ components, t.shape = .tuple elements.length components := by
  have hfits := h.shape_fits hr
  cases heq : t.shape with
  | tuple size components =>
    obtain ⟨rfl, rfl⟩ := Term.eq_of_shape_eq_tuple heq
    exact ⟨components, by rw [h.tuple_components.length_eq]⟩
  | literal value =>
    rw [heq] at hfits
    cases value <;> cases hfits
  | data _ _ =>
    rw [heq] at hfits
    rcases hfits with hfits | ⟨name, hfits⟩ <;> contradiction
  | function =>
    rw [heq] at hfits
    contradiction
  | pending => exact absurd heq hshape

/-- An evaluated term of a data type is built by a constructor. -/
theorem HasType.canonical_data (hr : r.Reachable) {name : String} {args : List Ty}
    (h : HasType r env t (.data name args)) (hshape : t.shape ≠ .pending) :
    ∃ constructor fields, t.shape = .data constructor fields := by
  have hfits := h.shape_fits hr
  cases heq : t.shape with
  | data constructor fields => exact ⟨constructor, fields, rfl⟩
  | literal value =>
    rw [heq] at hfits
    cases value <;> cases hfits
  | tuple _ _ =>
    rw [heq] at hfits
    contradiction
  | function =>
    rw [heq] at hfits
    contradiction
  | pending => exact absurd heq hshape

end Clausal
