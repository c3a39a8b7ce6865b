import Clausal.Proofs.Reduction.Step
import Clausal.Proofs.Typing.Canonical
import Clausal.Proofs.Typing.Principal

/-!
# Progress

A closed term that has a type and no step is evaluated, or it is blocked at a place where the
rules have no answer by design: a failed match, a division by zero, a comparison of values that
are no literals, the fields of data that another constructor has built.

The induction is on the size of the term. A term without a step is pending only if the standard
rule for the primitive at its head declines it or asks for an argument; in the second case the
argument is smaller, and closed and typed like the whole.

## Main results

* `Operator.evaluate?_eq_none`: an operator on typed literals fails only for a division by zero;
* `HasType.blocked_of_declined`: a typed spine that its rule declines is blocked;
* `Term.evaluated_or_blocked`: a closed term with an inferred type and no step is evaluated or
  blocked.
-/

namespace Clausal

/-- Whether an operator compares its operands, which may have any type. -/
def Operator.isComparison : Operator → Bool
  | eq | neq | lt | leq | gt | geq => true
  | _ => false

/-- A term that can never be evaluated, although it may have a type. -/
inductive Blocked : Term → Prop
  /-- The result of a match that no pattern fits. -/
  | bot (args : List Term) : Blocked ((Term.primitive .bot).applyAll args)
  /-- A division by zero. -/
  | division {op : Operator} (a : Int64) : op = .div ∨ op = .mod →
      Blocked ((Term.primitive (.operator op)).applyAll [.literal (.int a), .literal (.int 0)])
  /-- A comparison with an operand that has no step and is no literal. -/
  | comparison {op : Operator} {left right operand : Term} : op.isComparison = true →
      operand ∈ [left, right] → operand.step? DeltaRule.standard = none →
      operand.literal? = none →
      Blocked ((Term.primitive (.operator op)).applyAll [left, right])
  /-- The fields of data that another constructor has built. -/
  | argOf {expected found : String} (fields rest : List Term) : found ≠ expected →
      Blocked ((Term.primitive (.argOf expected)).applyAll
        ((Term.const (.constructor found)).applyAll fields :: rest))
  /-- A primitive whose rule asks for an argument that is blocked. -/
  | operand {p : Primitive} {args : List Term} {rule : DeltaRule} {i : Nat} {arg : Term} :
      rule ∈ DeltaRule.standard → rule.respond (.primitive p) args = .needsArgument i →
      args[i]? = some arg → Blocked arg → Blocked ((Term.primitive p).applyAll args)

/-! ## Operators on typed literals -/

/-- Two literals of one type are of one kind. -/
theorem Literal.kinds_of_type_eq {left right : Literal} (h : left.type = right.type) :
    (∃ a b, left = .int a ∧ right = .int b) ∨ (∃ a b, left = .float a ∧ right = .float b)
      ∨ (∃ a b, left = .char a ∧ right = .char b)
      ∨ ∃ a b, left = .bool a ∧ right = .bool b := by
  cases left with
  | int a =>
    cases right with
    | int b => exact .inl ⟨a, b, rfl, rfl⟩
    | float _ | char _ | bool _ => cases h
  | float a =>
    cases right with
    | float b => exact .inr (.inl ⟨a, b, rfl, rfl⟩)
    | int _ | char _ | bool _ => cases h
  | char a =>
    cases right with
    | char b => exact .inr (.inr (.inl ⟨a, b, rfl, rfl⟩))
    | int _ | float _ | bool _ => cases h
  | bool a =>
    cases right with
    | bool b => exact .inr (.inr (.inr ⟨a, b, rfl, rfl⟩))
    | int _ | float _ | char _ => cases h

namespace Operator

/-- The operands of an operator on two are those of a comparison or of the type of a literal. -/
theorem isComparison_or_operand_eq {op : Operator} (h : op.arity = 2) :
    op.isComparison = true
      ∨ ∃ value : Literal, ∀ image, op.operand.bind image = value.type := by
  cases op with
  | plus | minus | mult | div | mod => exact .inr ⟨.int 0, fun _ => rfl⟩
  | fplus | fminus | fmult | fdiv => exact .inr ⟨.float 0, fun _ => rfl⟩
  | and | or => exact .inr ⟨.bool true, fun _ => rfl⟩
  | eq | neq | lt | leq | gt | geq => exact .inl rfl
  | not | negate => contradiction

/-- Two literals of one type compare. -/
theorem exists_evaluate?_of_isComparison {op : Operator} (h : op.isComparison = true)
    {left right : Literal} (htype : left.type = right.type) :
    ∃ value, op.evaluate? left right = some value := by
  cases op with
  | eq | neq | lt | leq | gt | geq =>
    rcases Literal.kinds_of_type_eq htype with ⟨a, b, rfl, rfl⟩ | ⟨a, b, rfl, rfl⟩
      | ⟨a, b, rfl, rfl⟩ | ⟨a, b, rfl, rfl⟩ <;> exact ⟨_, rfl⟩
  | _ => cases h

/-- An operator on literals of the types that it expects fails only for a division by zero. -/
theorem evaluate?_eq_none {op : Operator} (hop : op.arity = 2) {left right : Literal}
    {image : TypeVar → Ty} (hleft : left.type = op.operand.bind image)
    (hright : right.type = op.operand.bind image) (h : op.evaluate? left right = none) :
    (op = .div ∨ op = .mod) ∧ ∃ a, left = .int a ∧ right = .int 0 := by
  have hzero {b c : Int64}
      (h : ((if b = 0 then none else some c).map Literal.int).or none = none) : b = 0 := by
    by_contra hb
    rw [if_neg hb] at h
    contradiction
  have htype := hleft.trans hright.symm
  -- what is no comparison expects literals of one kind, and has a result for all but zero divisors
  by_cases hcomparison : op.isComparison = true
  · obtain ⟨value, hvalue⟩ := exists_evaluate?_of_isComparison hcomparison htype
    rw [h] at hvalue
    cases hvalue
  · rcases Literal.kinds_of_type_eq htype with ⟨a, b, rfl, rfl⟩ | ⟨a, b, rfl, rfl⟩
      | ⟨a, b, rfl, rfl⟩ | ⟨a, b, rfl, rfl⟩
    · cases op with
      | div => exact ⟨.inl rfl, a, rfl, congrArg Literal.int (hzero h)⟩
      | mod => exact ⟨.inr rfl, a, rfl, congrArg Literal.int (hzero h)⟩
      | plus | minus | mult => cases h
      | fplus | fminus | fmult | fdiv | and | or => cases hleft
      | eq | neq | lt | leq | gt | geq => exact absurd rfl hcomparison
      | not | negate => cases hop
    · cases op with
      | fplus | fminus | fmult | fdiv => cases h
      | plus | minus | mult | div | mod | and | or => cases hleft
      | eq | neq | lt | leq | gt | geq => exact absurd rfl hcomparison
      | not | negate => cases hop
    · cases op with
      | plus | minus | mult | div | mod | fplus | fminus | fmult | fdiv | and | or => cases hleft
      | eq | neq | lt | leq | gt | geq => exact absurd rfl hcomparison
      | not | negate => cases hop
    · cases op with
      | and | or => cases h
      | plus | minus | mult | div | mod | fplus | fminus | fmult | fdiv => cases hleft
      | eq | neq | lt | leq | gt | geq => exact absurd rfl hcomparison
      | not | negate => cases hop

end Operator

/-! ## Spines that a rule declines -/

section

variable {r : Registry} {env : String → Ty} {ty : Ty} {t : Term}

/-- A term that no shape makes a literal is none. -/
theorem Term.literal?_eq_none_of_shape (h : ∀ value, t.shape ≠ .literal value) :
    t.literal? = none := by
  cases t with
  | const c =>
    cases c with
    | literal value => exact absurd rfl (h value)
    | constructor _ | primitive _ => rfl
  | var _ | abs _ _ | app _ _ => rfl

/-- An operator on two operands that its rule declines divides by zero or compares a value that
is no literal. -/
theorem HasType.blocked_of_binary_declined (hr : r.Reachable) {op : Operator} (hop : op.arity = 2)
    {left right : Term}
    (h : HasType r env ((Term.primitive (.operator op)).applyAll [left, right]) ty)
    (hbeta : ∀ arg ∈ [left, right], arg.betaStep? = none)
    (hdeclined : DeltaRule.applyBinary op [left, right] = .declined) :
    Blocked ((Term.primitive (.operator op)).applyAll [left, right]) := by
  obtain ⟨-, image, hleft, hright⟩ := h.binary_operands hop
  -- an operand that is evaluated and no literal can only be compared
  have hopaque (operand : Term) (hmem : operand ∈ [left, right])
      (htyped : HasType r env operand (op.operand.bind image))
      (hshape : operand.shape ≠ .pending) (hliteral : ∀ value, operand.shape ≠ .literal value) :
      Blocked ((Term.primitive (.operator op)).applyAll [left, right]) := by
    rcases Operator.isComparison_or_operand_eq hop with hcomparison | ⟨expected, hexpected⟩
    · exact .comparison hcomparison hmem
        (Term.step?_eq_none_of_shape (hbeta operand hmem) hshape)
        (Term.literal?_eq_none_of_shape hliteral)
    · rw [hexpected] at htyped
      obtain ⟨value, rfl, -⟩ := htyped.canonical_literal hr hshape
      exact absurd rfl (hliteral value)
  rcases withLiteral_eq_declined rfl hdeclined with
    ⟨leftValue, rfl, hleftAnswer⟩ | ⟨hshape, hliteral⟩
  · split at hleftAnswer
    · contradiction
    · rcases withLiteral_eq_declined rfl hleftAnswer with
        ⟨rightValue, rfl, hrightAnswer⟩ | ⟨hshape, hliteral⟩
      · split at hrightAnswer
        · contradiction
        · next hnone =>
          obtain ⟨hdivision, a, rfl, rfl⟩ := Operator.evaluate?_eq_none hop
            (hasType_literal_iff.1 hleft).symm (hasType_literal_iff.1 hright).symm hnone
          exact .division a hdivision
      · exact hopaque right (.tail _ (.head _)) hright hshape hliteral
  · exact hopaque left (.head _) hleft hshape hliteral

/-- A rule for one literal does not decline an argument of the type of that literal. -/
theorem HasType.withLiteral_ne_declined (hr : r.Reachable) (expected : Literal)
    (h : HasType r env t expected.type) {answer : Literal → Outcome}
    (hanswer : ∀ value : Literal, value.type = expected.type → answer value ≠ .declined) :
    withLiteral [t] 0 answer ≠ .declined := by
  intro hdeclined
  rcases withLiteral_eq_declined rfl hdeclined with ⟨value, rfl, hvalue⟩ | ⟨hshape, hliteral⟩
  · exact hanswer value (hasType_literal_iff.1 h).symm hvalue
  · obtain ⟨value, rfl, -⟩ := h.canonical_literal hr hshape
    exact hliteral value rfl

/-- A typed operator on one operand is not declined. -/
theorem HasType.applyUnary_ne_declined (hr : r.Reachable) {op : Operator} (hop : op.arity = 1)
    (h : HasType r env (.app (.primitive (.operator op)) t) ty) :
    DeltaRule.applyUnary op [t] ≠ .declined := by
  rw [hasType_primitive_app_iff (by rw [Primitive.signature, Operator.type_of_arity_one hop])] at h
  obtain ⟨image, htyped, -⟩ := h
  cases op with
  | not =>
    refine HasType.withLiteral_ne_declined hr (.bool true) htyped fun value hvalue => ?_
    cases value with
    | bool _ => exact Outcome.noConfusion
    | int _ | float _ | char _ => cases hvalue
  | negate =>
    refine HasType.withLiteral_ne_declined hr (.int 0) htyped fun value hvalue => ?_
    cases value with
    | int _ => exact Outcome.noConfusion
    | bool _ | float _ | char _ => cases hvalue
  | _ => cases hop

theorem HasType.applyBranch_ne_declined (hr : r.Reachable)
    (h : HasType r env (.app (.primitive .branch) t) ty) :
    DeltaRule.applyBranch [t] ≠ .declined := by
  obtain ⟨image, htyped, -⟩ := (hasType_primitive_app_iff rfl).1 h
  refine HasType.withLiteral_ne_declined hr (.bool true) htyped fun value hvalue => ?_
  cases value with
  | bool value => cases value <;> exact Outcome.noConfusion
  | int _ | float _ | char _ => cases hvalue

/-- A typed projection of a tuple is about one of its components. -/
theorem HasType.select_bounds {size index : Nat}
    (h : HasType r env (.primitive (.select size index)) ty) : 1 ≤ index ∧ index ≤ size := by
  obtain ⟨scheme, hscheme, -⟩ := hasType_const_iff.1 h
  rw [Constant.signature, Primitive.signature] at hscheme
  split at hscheme
  · next hbounds => exact hbounds
  · contradiction

/-- A typed test or projection of a tuple is not declined. -/
theorem HasType.inspectTuple_ne_declined (hr : r.Reachable) {c : Constant}
    (hc : DeltaRule.IsAbout .tupleIntrospection c) (h : HasType r env (.app (.const c) t) ty) :
    DeltaRule.inspectTuple c t.shape ≠ .declined := by
  intro hdeclined
  cases hc with
  | isTuple size => cases hshape : t.shape <;> rw [hshape] at hdeclined <;> contradiction
  | select size index =>
    obtain ⟨_, hhead, -⟩ := hasType_app_iff.1 h
    have hbounds := hhead.select_bounds
    obtain ⟨image, htyped, -⟩ :=
      (hasType_primitive_app_iff (by rw [Primitive.signature, if_pos hbounds])).1 h
    by_cases hpending : t.shape = .pending
    · rw [hpending] at hdeclined
      cases index <;> contradiction
    -- an evaluated argument is a tuple of the size of the projection
    · rw [Ty.bind_con] at htyped
      obtain ⟨components, hshape⟩ := htyped.canonical_tuple hr hpending
      have hlength := (Term.eq_of_shape_eq_tuple hshape).1
      rw [List.length_map, Ty.length_components] at hshape hlength
      cases index with
      | zero => exact absurd hbounds.1 (by decide)
      | succ i =>
        have hlt : i < components.length := hlength ▸ hbounds.2
        rw [hshape, DeltaRule.inspectTuple, if_pos rfl, List.getElem?_eq_getElem hlt] at hdeclined
        contradiction

/-- A typed test or projection of data that is declined is a projection of data that another
constructor has built. -/
theorem HasType.exists_of_inspectData_declined (hr : r.Reachable) {c : Constant}
    (hc : DeltaRule.IsAbout .constructorIntrospection c)
    (h : HasType r env (.app (.const c) t) ty)
    (hdeclined : DeltaRule.inspectData c t.shape = .declined) :
    ∃ expected found fields, c = .primitive (.argOf expected) ∧ found ≠ expected
      ∧ t = (Term.const (.constructor found)).applyAll fields := by
  cases hc with
  | isConstructor name =>
    cases hshape : t.shape <;> rw [hshape] at hdeclined <;> contradiction
  | argOf name =>
    obtain ⟨type, image, htype, htyped, -⟩ := h.inspected_data rfl
    obtain ⟨⟨dataName, hresult⟩, -⟩ := Registry.constructorType_spec hr htype
    rw [hresult, Ty.bind_con] at htyped
    by_cases hpending : t.shape = .pending
    · rw [hpending] at hdeclined
      contradiction
    · obtain ⟨found, fields, hshape⟩ := htyped.canonical_data hr hpending
      refine ⟨name, found, fields, rfl, fun heq => ?_, Term.eq_of_shape_eq_data hshape⟩
      rw [hshape, DeltaRule.inspectData, if_pos heq] at hdeclined
      contradiction

/-- A typed operator on two operands has no other arguments. -/
theorem HasType.binary_saturated {op : Operator} (hop : op.arity = 2) {args : List Term}
    (h : HasType r env ((Term.primitive (.operator op)).applyAll args) ty)
    (harity : 2 ≤ args.length) : ∃ left right, args = [left, right] := by
  obtain ⟨left, right, rest, rfl⟩ : ∃ left right rest, args = left :: right :: rest := by
    cases args with
    | nil => contradiction
    | cons left args =>
      cases args with
      | nil => exact absurd harity (show ¬2 ≤ 1 by decide)
      | cons right rest => exact ⟨left, right, rest, rfl⟩
  obtain ⟨params, hconsumed, hrest⟩ :=
    hasType_applyAll_iff.1 (show HasType r env
      (((Term.primitive (.operator op)).applyAll [left, right]).applyAll rest) ty from h)
  -- the result of an operator is no function, so nothing can be applied to it
  rw [op.isData_result.eq_nil_of_arrows_eq (hconsumed.binary_operands hop).1] at hrest
  exact ⟨left, right, by rw [List.forall₂_nil_right_iff.1 hrest]⟩

/-- A typed spine that its rule declines is blocked. -/
theorem HasType.blocked_of_declined (hr : r.Reachable) {rule : DeltaRule} {c : Constant}
    (hc : rule.IsAbout c) {args : List Term} (h : HasType r env ((Term.const c).applyAll args) ty)
    (harity : rule.arity ≤ args.length) (hbeta : ∀ arg ∈ args, arg.betaStep? = none)
    (hdeclined : rule.apply c (args.take rule.arity) = .declined) :
    Blocked ((Term.const c).applyAll args) := by
  by_cases hrule : rule = .binaryOperators
  · subst hrule
    cases hc with
    | binary hop =>
      obtain ⟨left, right, rfl⟩ := h.binary_saturated hop harity
      exact h.blocked_of_binary_declined hr hop hbeta hdeclined
  -- of the rules for one argument, only a projection of data declines a typed one
  · have hone : rule.arity = 1 := hc.arity_eq_one hrule
    cases args with
    | nil =>
      rw [hone] at harity
      contradiction
    | cons arg rest =>
      rw [hone, List.take_succ_cons, List.take_zero] at hdeclined
      obtain ⟨params, hconsumed, -⟩ := hasType_applyAll_iff.1 (show HasType r env
        ((Term.app (.const c) arg).applyAll rest) ty from h)
      cases hc with
      | binary _ => exact absurd rfl hrule
      | unary hop => exact absurd hdeclined (hconsumed.applyUnary_ne_declined hr hop)
      | branch => exact absurd hdeclined (hconsumed.applyBranch_ne_declined hr)
      | fix => contradiction
      | isTuple size =>
        exact absurd hdeclined (hconsumed.inspectTuple_ne_declined hr (.isTuple size))
      | select size index =>
        exact absurd hdeclined (hconsumed.inspectTuple_ne_declined hr (.select size index))
      | isConstructor name =>
        obtain ⟨_, _, _, hc, -⟩ :=
          hconsumed.exists_of_inspectData_declined hr (.isConstructor name) hdeclined
        cases hc
      | argOf name =>
        obtain ⟨expected, found, fields, hc, hne, rfl⟩ :=
          hconsumed.exists_of_inspectData_declined hr (.argOf name) hdeclined
        rw [hc]
        exact .argOf fields rest hne
      | isLiteral literal =>
        change DeltaRule.inspectLiteral _ arg.shape = _ at hdeclined
        cases hshape : arg.shape <;> rw [hshape] at hdeclined <;> contradiction

/-! ## Terms without a step -/

/-- A typed constant that is pending is `bot`, or a primitive with its arguments. -/
theorem HasType.pending_cases {c : Constant} {args : List Term}
    (h : HasType r env ((Term.const c).applyAll args) ty) (hpending : c.shape args = .pending) :
    c = .primitive .bot
      ∨ ∃ p arity, c = .primitive p ∧ p.arity? = some arity ∧ arity ≤ args.length := by
  obtain ⟨params, hhead, hargs⟩ := hasType_applyAll_iff.1 h
  cases c with
  | literal value =>
    -- a literal is no function, so it has no arguments and is evaluated
    obtain ⟨c, hvalue, -, harrow, -⟩ := value.exists_type_eq
    have hdata : value.type.IsData := ⟨c, [], hvalue, harrow⟩
    rw [hdata.eq_nil_of_arrows_eq (hasType_literal_iff.1 hhead)] at hargs
    rw [List.forall₂_nil_right_iff.1 hargs] at hpending
    contradiction
  | constructor name => contradiction
  | primitive p =>
    cases harity : p.arity? with
    | some arity =>
      rw [Constant.shape_of_arity? harity] at hpending
      split at hpending
      · contradiction
      · next hle => exact .inr ⟨p, arity, rfl, harity, Nat.le_of_not_lt hle⟩
    | none =>
      cases p with
      | bot => exact .inl rfl
      | tuple size =>
        -- a tuple has no more components than its size
        obtain ⟨image, hbind⟩ := (hasType_closed_iff rfl).1 hhead
        rw [Ty.bind_arrows] at hbind
        have hdata : ((Ty.tuple (Ty.components size)).bind image).IsData :=
          Ty.IsData.bind ⟨_, _, rfl, TyCon.noConfusion⟩ image
        obtain ⟨rest, hparams, -⟩ := hdata.exists_eq_append hbind
        have hlength := congrArg List.length hparams
        rw [List.length_map, Ty.length_components, List.length_append, ← hargs.length_eq]
          at hlength
        rw [Constant.shape] at hpending
        split at hpending
        · contradiction
        · split at hpending
          · contradiction
          · omega
      | operator _ | branch | fix | isTuple _ | select _ _ | isConstructor _ | argOf _
      | isLiteral _ => contradiction

/-- A closed term that has a type and no step is evaluated or blocked. -/
theorem HasType.progress (hr : r.Reachable) (h : HasType r env t ty)
    (hclosed : t.isClosed = true) (hstep : t.step? DeltaRule.standard = none) :
    t.shape ≠ .pending ∨ Blocked t := by
  induction t using Term.size_induction generalizing ty with
  | step t ih =>
    obtain ⟨hbeta, hrules⟩ := Term.step?_eq_none_cases hstep
    cases hhead : t.head with
    | app func arg => exact absurd hhead (t.head_ne_app func arg)
    | var name => exact absurd (Term.mem_free_of_head hhead) (Term.isClosed_iff.1 hclosed name)
    -- an abstraction with an argument would be a redex
    | abs param body =>
      rw [Term.shape, hhead, Term.args_eq_nil_of_betaStep? hbeta hhead]
      exact .inl Shape.noConfusion
    | const c =>
      have hwhole : (Term.const c).applyAll t.args = t := by rw [← hhead, Term.applyAll_head_args]
      rw [← hwhole] at h ⊢
      rw [Term.shape_const_applyAll]
      by_cases hpending : c.shape t.args = .pending
      · right
        have hargsClosed (arg : Term) (harg : arg ∈ t.args) : arg.isClosed = true :=
          Term.isClosed_of_mem_args hclosed harg
        have hargsBeta (arg : Term) (harg : arg ∈ t.args) : arg.betaStep? = none :=
          Term.betaStep?_eq_none_of_mem_args hbeta harg
        -- the head is `bot` or a primitive with its arguments, for which there is a rule
        rcases h.pending_cases hpending with rfl | ⟨p, arity, rfl, harity, hle⟩
        · exact .bot t.args
        · obtain ⟨rule, hrule, hc⟩ := DeltaRule.exists_mem_standard harity
          obtain ⟨_, ⟨⟩, harity'⟩ := hc.exists_arity?
          obtain rfl := Option.some.inj (harity.symm.trans harity')
          have happlicable : rule.Applicable (.primitive p) t.args :=
            ⟨DeltaRule.accepts_iff_isAbout.2 hc, hle,
              fun _ arg harg => hargsClosed arg (List.mem_of_mem_take harg)⟩
          rcases hrules _ hhead rule hrule with hdeclined | ⟨i, hneeds, hargStep⟩
          · exact h.blocked_of_declined hr hc hle hargsBeta
              (happlicable.apply_eq_declined hdeclined)
          -- the argument that the rule asks for is pending, and it is smaller
          · obtain ⟨arg, harg, hshape⟩ := DeltaRule.respond_eq_needsArgument hneeds
            obtain ⟨params, -, hargs⟩ := hasType_applyAll_iff.1 h
            obtain ⟨param, -, htyped⟩ := exists_related_getElem? hargs harg
            have hmem := List.mem_of_getElem? harg
            have hblocked := (ih arg (Term.size_lt_of_mem_args hmem) htyped
              (hargsClosed arg hmem) (hargStep arg harg)).resolve_left fun hne => hne hshape
            exact .operand hrule hneeds harg hblocked
      · exact .inl hpending

end

/-- A closed term with an inferred type and no step is a literal, a tuple, data or a function, or
it is blocked. -/
theorem Term.evaluated_or_blocked {r : Registry} (hr : r.Reachable) {t : Term} {ty : Ty}
    (htype : t.type r = .ok ty) (hclosed : t.isClosed = true)
    (hstep : t.step? DeltaRule.standard = none) : t.shape ≠ .pending ∨ Blocked t := by
  obtain ⟨env, h⟩ := exists_hasType_of_type hr htype (.refl ty)
  exact h.progress hr hclosed hstep

/-- The field of a value that is missing has a type and no step, and it is not evaluated. -/
theorem Term.evaluated_or_blocked_argOf :
    Blocked (.app (.primitive (.argOf "Some")) (.const (.constructor "None"))) := by
  have htype : Term.type .optional
      (.app (.primitive (.argOf "Some")) (.const (.constructor "None")))
      = .ok (.numbered 0) := by cbv
  have hstep : Term.step? DeltaRule.standard
      (.app (.primitive (.argOf "Some")) (.const (.constructor "None"))) = none := by cbv
  exact (evaluated_or_blocked Registry.reachable_optional htype (by decide) hstep).resolve_left
    fun h => h rfl

end Clausal
