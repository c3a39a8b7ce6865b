import Clausal.Proofs.Reduction.Step
import Clausal.Proofs.Typing.Principal
import Clausal.Proofs.Typing.Spine

/-!
# Preservation

A step keeps every type that a term has, whichever types its free variables have. A beta step
does so because substitution does; for a delta step each rule has to agree with the signature of
its constant. The type that inference finds is the most general one, so after a step it is at
least as general as before.

## Main results

* `HasType.betaStep`: a beta step keeps the types of a term;
* `HasType.apply`: the answer of a delta rule has the types of the constant applied to the
  arguments that the rule consumes;
* `HasType.step`: a step with any of the delta rules keeps the types of a term;
* `Term.type_of_steps`: inference succeeds after any number of steps, with a type that is at least
  as general.
-/

namespace Clausal

section

variable {r : Registry} {env : String → Ty} {ty : Ty}

/-- A beta step keeps the types of a term. -/
theorem HasType.betaStep {t t' : Term} (h : HasType r env t ty) (hstep : t.betaStep? = some t') :
    HasType r env t' ty := by
  fun_induction Term.betaStep? t generalizing t' ty with
  -- the redex is the whole term
  | case1 param body arg =>
    obtain rfl := Option.some.inj hstep
    obtain ⟨source, habs, harg⟩ := hasType_app_iff.1 h
    obtain ⟨_, _, heq, hbody⟩ := hasType_abs_iff.1 habs
    obtain ⟨rfl, rfl⟩ := Ty.arrow_inj.1 heq
    exact hbody.subst harg
  | case2 func arg _ func' hfunc ih =>
    obtain rfl := Option.some.inj hstep
    obtain ⟨source, htyped, harg⟩ := hasType_app_iff.1 h
    exact .app (ih htyped hfunc) harg
  | case3 func arg _ _ _ ih =>
    obtain ⟨arg', harg', rfl⟩ := Option.map_eq_some_iff.1 hstep
    obtain ⟨source, hfunc, harg⟩ := hasType_app_iff.1 h
    exact .app hfunc (ih harg harg')
  | case4 => contradiction

/-! ## The rules for operators -/

namespace Operator

theorem result_of_compare? {op : Operator} {isLess isEqual isGreater value : Bool}
    (h : op.compare? isLess isEqual isGreater = some value) : op.result = .bool := by
  cases op <;> first | rfl | contradiction

theorem result_of_onInts? {op : Operator} {a b value : Int64} (h : op.onInts? a b = some value) :
    op.result = .int := by
  cases op <;> first | rfl | contradiction

theorem result_of_onFloats? {op : Operator} {a b value : Float}
    (h : op.onFloats? a b = some value) : op.result = .float := by
  cases op <;> first | rfl | contradiction

theorem result_of_onBools? {op : Operator} {a b value : Bool}
    (h : op.onBools? a b = some value) : op.result = .bool := by
  cases op <;> first | rfl | contradiction

/-- An operator that has a result has one of its type. -/
theorem type_of_evaluate? {op : Operator} {left right value : Literal}
    (h : op.evaluate? left right = some value) : value.type = op.result := by
  have hcompare {isLess isEqual isGreater : Bool}
      (h : (op.compare? isLess isEqual isGreater).map .bool = some value) :
      value.type = op.result := by
    obtain ⟨_, hvalue, rfl⟩ := Option.map_eq_some_iff.1 h
    exact (result_of_compare? hvalue).symm
  rw [evaluate?.eq_def] at h
  -- one case for each kind of literals: arithmetic first, and a comparison where there is none
  split at h
  · rcases Option.or_eq_some_iff.1 h with h | ⟨-, h⟩
    · obtain ⟨_, hvalue, rfl⟩ := Option.map_eq_some_iff.1 h
      exact (result_of_onInts? hvalue).symm
    · exact hcompare h
  · rcases Option.or_eq_some_iff.1 h with h | ⟨-, h⟩
    · obtain ⟨_, hvalue, rfl⟩ := Option.map_eq_some_iff.1 h
      exact (result_of_onFloats? hvalue).symm
    · exact hcompare h
  · exact hcompare h
  · obtain ⟨_, hvalue, rfl⟩ := Option.map_eq_some_iff.1 h
    rcases Option.or_eq_some_iff.1 hvalue with h | ⟨-, h⟩
    · exact (result_of_onBools? h).symm
    · exact (result_of_compare? h).symm
  · contradiction

/-- An operator whose first operand can decide the result is a connective. -/
theorem result_of_shortcut? {op : Operator} {left : Literal} {value : Bool}
    (h : op.shortcut? left = some value) : op.result = .bool := by
  cases op <;> first | rfl | contradiction

end Operator

/-- A truth value has the type of truth values. -/
theorem hasType_truth (value : Bool) : HasType r env (.truth value) .bool :=
  hasType_literal_iff.2 rfl

theorem HasType.applyBinary {op : Operator} (hop : op.arity = 2) {left right t : Term}
    (h : HasType r env ((Term.primitive (.operator op)).applyAll [left, right]) ty)
    (happly : DeltaRule.applyBinary op [left, right] = .reduced t) : HasType r env t ty := by
  obtain ⟨rfl, -⟩ := h.binary_operands hop
  obtain ⟨leftValue, -, happly⟩ := withLiteral_eq_reduced happly
  split at happly
  -- the first operand decides the result, whatever the second one is
  · next value hshortcut =>
    rw [← Outcome.reduced.inj happly, Operator.result_of_shortcut? hshortcut]
    exact hasType_truth value
  · obtain ⟨rightValue, -, happly⟩ := withLiteral_eq_reduced happly
    split at happly
    · next value hvalue =>
      rw [← Outcome.reduced.inj happly]
      exact hasType_literal_iff.2 (Operator.type_of_evaluate? hvalue).symm
    · contradiction

theorem HasType.applyUnary {op : Operator} (hop : op.arity = 1) {arg t : Term}
    (h : HasType r env (.app (.primitive (.operator op)) arg) ty)
    (happly : DeltaRule.applyUnary op [arg] = .reduced t) : HasType r env t ty := by
  rw [hasType_primitive_app_iff (by rw [Primitive.signature, Operator.type_of_arity_one hop])] at h
  obtain ⟨image, -, rfl⟩ := h
  obtain ⟨value, -, happly⟩ := withLiteral_eq_reduced happly
  rw [Operator.bind_result]
  split at happly
  · rw [← Outcome.reduced.inj happly]
    exact hasType_truth _
  · rw [← Outcome.reduced.inj happly]
    exact hasType_literal_iff.2 rfl
  · contradiction

/-! ## The rules for control -/

/-- A function of two arguments of one type that returns one of them. -/
theorem hasType_firstOfTwo (t : Ty) : HasType r env firstOfTwo (.arrow t (.arrow t t)) := by
  refine .abs (.abs (hasType_var_iff.2 ?_))
  rw [Function.update_of_ne (by decide), Function.update_self]

theorem hasType_secondOfTwo (t : Ty) : HasType r env secondOfTwo (.arrow t (.arrow t t)) := by
  refine .abs (.abs (hasType_var_iff.2 ?_))
  rw [Function.update_self]

theorem HasType.applyBranch {arg t : Term} (h : HasType r env (.app (.primitive .branch) arg) ty)
    (happly : DeltaRule.applyBranch [arg] = .reduced t) : HasType r env t ty := by
  obtain ⟨image, -, rfl⟩ := (hasType_primitive_app_iff rfl).1 h
  obtain ⟨value, -, happly⟩ := withLiteral_eq_reduced happly
  split at happly
  · rw [← Outcome.reduced.inj happly]
    exact hasType_firstOfTwo _
  · rw [← Outcome.reduced.inj happly]
    exact hasType_secondOfTwo _
  · contradiction

/-- Unfolding a fixpoint uses it again at its type. -/
theorem HasType.unfold_fix {function : Term}
    (h : HasType r env (.app (.primitive .fix) function) ty) :
    HasType r env (.app function (.app (.primitive .fix) function)) ty := by
  obtain ⟨image, hfunction, rfl⟩ := (hasType_primitive_app_iff rfl).1 h
  exact .app hfunction h

/-! ## The rules for tuples, data and literals -/

/-- Packed fields have the packed types. -/
theorem hasType_fieldsTerm {fields : List Term} {types : List Ty}
    (h : List.Forall₂ (HasType r env) fields types) :
    HasType r env (fieldsTerm fields) (.packed types) := by
  cases h with
  | nil => exact hasType_tuple .nil
  | cons hfield hfields =>
    cases hfields with
    | nil => exact hfield
    | cons hsecond hrest => exact hasType_tuple (.cons hfield (.cons hsecond hrest))

theorem Ty.bind_packed (image : TypeVar → Ty) (fields : List Ty) :
    (packed fields).bind image = packed (fields.map (Ty.bind image)) := by
  rcases packed_cases fields with ⟨field, rfl, -⟩ | ⟨hlength, hpacked⟩
  · rfl
  · rcases packed_cases (fields.map (Ty.bind image)) with ⟨field, hfields, -⟩ | ⟨-, hpacked'⟩
    · exact absurd (by rw [← List.length_map (Ty.bind image), hfields]; rfl) hlength
    · rw [hpacked, hpacked', bind_con]

/-- A test or projection of a tuple returns what its type says. -/
theorem HasType.inspectTuple {c : Constant} (hc : DeltaRule.IsAbout .tupleIntrospection c)
    {arg t : Term} (h : HasType r env (.app (.const c) arg) ty)
    (happly : DeltaRule.inspectTuple c arg.shape = .reduced t) : HasType r env t ty := by
  cases hc with
  | isTuple size =>
    obtain ⟨image, -, rfl⟩ := (hasType_primitive_app_iff rfl).1 h
    obtain ⟨value, rfl⟩ := DeltaRule.inspectTuple_isTuple_eq_reduced happly
    exact hasType_truth value
  | select size index =>
    obtain ⟨i, components, rfl, hshape, hcomponent⟩ :=
      DeltaRule.inspectTuple_select_eq_reduced happly
    obtain ⟨hlength, rfl⟩ := Term.eq_of_shape_eq_tuple hshape
    obtain ⟨hlt, -⟩ := List.getElem?_eq_some_iff.1 hcomponent
    rw [hlength] at hlt
    have hsignature : (Primitive.select size (i + 1)).signature r
        = .ok (.closed (.arrow (.tuple (Ty.components size)) (.numbered i))) := by
      rw [Primitive.signature, if_pos ⟨Nat.le_add_left 1 i, hlt⟩, Nat.add_sub_cancel]
    obtain ⟨image, harg, rfl⟩ := (hasType_primitive_app_iff hsignature).1 h
    rw [Ty.bind_con] at harg
    -- the component has the image of the variable with its number
    obtain ⟨element, helement, htyped⟩ := exists_related_getElem? harg.tuple_components hcomponent
    rw [List.getElem?_map, Ty.getElem?_components hlt] at helement
    rwa [Option.some.inj helement]

/-- A test or projection of data returns what the declaration says. -/
theorem HasType.inspectData (hr : r.Reachable) {c : Constant}
    (hc : DeltaRule.IsAbout .constructorIntrospection c) {arg t : Term}
    (h : HasType r env (.app (.const c) arg) ty)
    (happly : DeltaRule.inspectData c arg.shape = .reduced t) : HasType r env t ty := by
  cases hc with
  | isConstructor name =>
    obtain ⟨type, image, -, -, rfl⟩ := h.inspected_data rfl
    obtain ⟨value, rfl⟩ := DeltaRule.inspectData_isConstructor_eq_reduced happly
    exact hasType_truth value
  | argOf name =>
    obtain ⟨type, image, htype, harg, rfl⟩ := h.inspected_data rfl
    obtain ⟨fields, hshape, rfl⟩ := DeltaRule.inspectData_argOf_eq_reduced happly
    rw [Term.eq_of_shape_eq_data hshape] at harg
    rw [Ty.bind_packed]
    exact hasType_fieldsTerm (harg.data_fields hr htype)

theorem HasType.inspectLiteral {literal : Literal} {arg t : Term}
    (h : HasType r env (.app (.primitive (.isLiteral literal)) arg) ty)
    (happly : DeltaRule.inspectLiteral (.primitive (.isLiteral literal)) arg.shape = .reduced t) :
    HasType r env t ty := by
  obtain ⟨image, -, rfl⟩ := (hasType_primitive_app_iff rfl).1 h
  obtain ⟨value, rfl⟩ := DeltaRule.inspectLiteral_eq_reduced happly
  exact hasType_truth value

/-! ## Steps -/

/-- The answer of a rule has the types of the constant applied to the arguments. -/
theorem HasType.apply (hr : r.Reachable) {rule : DeltaRule} {c : Constant} {args : List Term}
    {t : Term} (h : HasType r env ((Term.const c).applyAll args) ty) (hc : rule.IsAbout c)
    (hlength : args.length = rule.arity) (happly : rule.apply c args = .reduced t) :
    HasType r env t ty := by
  -- only operators on two operands consume more than one argument
  by_cases hrule : rule = .binaryOperators
  · subst hrule
    obtain ⟨left, right, rfl⟩ := List.length_eq_two.1 hlength
    cases hc with
    | binary hop => exact h.applyBinary hop happly
  · have hone : rule.arity = 1 := hc.arity_eq_one hrule
    obtain ⟨arg, rfl⟩ := List.length_eq_one_iff.1 (hlength.trans hone)
    cases hc with
    | binary _ => exact absurd rfl hrule
    | unary hop => exact h.applyUnary hop happly
    | branch => exact h.applyBranch happly
    | fix =>
      rw [← Outcome.reduced.inj happly]
      exact h.unfold_fix
    | isTuple size => exact h.inspectTuple (.isTuple size) happly
    | select size index => exact h.inspectTuple (.select size index) happly
    | isConstructor name => exact h.inspectData hr (.isConstructor name) happly
    | argOf name => exact h.inspectData hr (.argOf name) happly
    | isLiteral literal => exact h.inspectLiteral happly

/-- The answer of a rule to a spine has the types of the spine: the arguments that the rule does
not consume are applied to it. -/
theorem HasType.respond (hr : r.Reachable) {rule : DeltaRule} {c : Constant} {args : List Term}
    {t : Term} (h : HasType r env ((Term.const c).applyAll args) ty)
    (hrespond : rule.respond c args = .reduced t) : HasType r env t ty := by
  obtain ⟨happlicable, result, happly, rfl⟩ := DeltaRule.respond_eq_reduced hrespond
  -- the arguments that the rule consumes come first
  rw [← List.take_append_drop rule.arity args, Term.applyAll_append] at h
  obtain ⟨params, hconsumed, hleft⟩ := hasType_applyAll_iff.1 h
  refine hasType_applyAll_iff.2 ⟨params, hconsumed.apply hr ?_ ?_ happly, hleft⟩
  · exact DeltaRule.accepts_iff_isAbout.1 happlicable.accepts
  · exact List.length_take_of_le happlicable.arity_le

/-- A step keeps the types of a term, with any of the delta rules. -/
theorem HasType.step (hr : r.Reachable) {rules : List DeltaRule} {t t' : Term}
    (h : HasType r env t ty) (hstep : t.step? rules = some t') : HasType r env t' ty := by
  induction t using Term.size_induction generalizing t' ty with
  | step t ih =>
    rcases Term.step?_cases hstep with hbeta | ⟨c, hhead, rule, -, hanswer⟩
    · exact h.betaStep hbeta
    · have hspine : HasType r env ((Term.const c).applyAll t.args) ty := by
        rwa [← hhead, Term.applyAll_head_args]
      rcases hanswer with hrespond | ⟨i, arg, arg', -, harg, hargStep, rfl⟩
      · exact hspine.respond hr hrespond
      -- the argument steps in its place, and keeps the type that the constant asks for
      · obtain ⟨params, hconst, hargs⟩ := hasType_applyAll_iff.1 hspine
        refine hasType_applyAll_iff.2
          ⟨params, hconst, forall₂_set hargs harg fun param hparam => ?_⟩
        exact ih arg (Term.size_lt_of_mem_args (List.mem_of_getElem? harg)) hparam hargStep

end

namespace Term

/-- A number of steps keeps the types of a term. -/
theorem Steps.hasType {r : Registry} (hr : r.Reachable) {rules : List DeltaRule} {t t' : Term}
    {env : String → Ty} {ty : Ty} (hsteps : Steps rules t t') (h : HasType r env t ty) :
    HasType r env t' ty := by
  induction hsteps with
  | refl => exact h
  | tail _ hstep ih => exact ih.step hr hstep

/-- Inference succeeds on every term that is reached by steps, and the type it finds is at least
as general as before. -/
theorem type_of_steps {r : Registry} (hr : r.Reachable) {t t' : Term} {ty : Ty}
    (h : t.type r = .ok ty) (hsteps : Steps DeltaRule.standard t t') :
    ∃ ty', t'.type r = .ok ty' ∧ ty'.Generalizes ty := by
  obtain ⟨env, htyped⟩ := exists_hasType_of_type hr h (.refl ty)
  exact exists_type_of_hasType hr (hsteps.hasType hr htyped)

/-- A conditional between the identity and a function on numbers steps to the identity, which is
more general. -/
theorem type_of_steps_branch :
    ((Term.primitive .branch).applyAll [.truth true, .abs "x" (.var "x"),
        .primitive (.operator .negate)]).type .optional = .ok (.arrow .int .int)
      ∧ ∃ ty, (Term.abs "x" (.var "x")).type .optional = .ok ty
        ∧ ty.Generalizes (.arrow .int .int) := by
  have htype : ((Term.primitive .branch).applyAll [.truth true, .abs "x" (.var "x"),
      .primitive (.operator .negate)]).type .optional = .ok (.arrow .int .int) := by cbv
  have hbranch : ((Term.primitive .branch).applyAll [.truth true, .abs "x" (.var "x"),
      .primitive (.operator .negate)]).step? DeltaRule.standard
      = some (firstOfTwo.applyAll [.abs "x" (.var "x"), .primitive (.operator .negate)]) := by
    cbv
  have hfirst : (firstOfTwo.applyAll [.abs "x" (.var "x"), .primitive (.operator .negate)]).step?
      DeltaRule.standard
      = some (.app (.abs "y" (.abs "x" (.var "x"))) (.primitive (.operator .negate))) := by
    cbv
  have hsecond : Term.step? DeltaRule.standard
      (.app (.abs "y" (.abs "x" (.var "x"))) (.primitive (.operator .negate)))
      = some (.abs "x" (.var "x")) := by
    cbv
  exact ⟨htype, type_of_steps Registry.reachable_optional htype
    (.head hbranch (.head hfirst (.head hsecond (.refl _ _))))⟩

end Term

end Clausal
