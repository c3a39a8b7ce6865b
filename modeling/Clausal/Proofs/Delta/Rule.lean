import Clausal.Delta.Rule
import Mathlib

/-!
# Answers of the delta rules

What a rule has seen when it reduces: its arguments are there, and those that it is strict in have
a shape that determines them.

## Main results

* `DeltaRule.respond_cases`: an answer that is not declined comes from the arguments that the
  rule consumes;
* `Term.shape_cases`: a literal, a tuple or data is the term that its shape shows;
* `withLiteral_eq_reduced`: what follows from a literal follows from an argument that is one.
-/

namespace Clausal

/-- An operator has one operand or two. -/
theorem Operator.arity_eq_one {op : Operator} (h : op.arity ≠ 2) : op.arity = 1 := by
  cases op <;> first | rfl | contradiction

/-! ## When a rule answers -/

namespace DeltaRule

variable {rule : DeltaRule} {head : Constant} {args : List Term}

/-- The constants that each rule is about. -/
inductive IsAbout : DeltaRule → Constant → Prop
  | binary {op : Operator} : op.arity = 2 → IsAbout binaryOperators (.primitive (.operator op))
  | unary {op : Operator} : op.arity = 1 → IsAbout unaryOperators (.primitive (.operator op))
  | branch : IsAbout branch (.primitive .branch)
  | fix : IsAbout fixpoint (.primitive .fix)
  | isTuple (size : Nat) : IsAbout tupleIntrospection (.primitive (.isTuple size))
  | select (size index : Nat) : IsAbout tupleIntrospection (.primitive (.select size index))
  | isConstructor (name : String) :
      IsAbout constructorIntrospection (.primitive (.isConstructor name))
  | argOf (name : String) : IsAbout constructorIntrospection (.primitive (.argOf name))
  | isLiteral (literal : Literal) : IsAbout literalDiscriminators (.primitive (.isLiteral literal))

/-- A rule accepts the constants that it is about. -/
theorem accepts_iff_isAbout : rule.accepts head = true ↔ rule.IsAbout head := by
  constructor
  · intro h
    rw [accepts.eq_def] at h
    split at h
    · exact .binary (beq_iff_eq.1 h)
    · exact .unary (beq_iff_eq.1 h)
    · exact .branch
    · exact .fix
    · exact .isTuple _
    · exact .select _ _
    · exact .isConstructor _
    · exact .argOf _
    · exact .isLiteral _
    · contradiction
  · intro h
    cases h with
    | binary hop => exact beq_iff_eq.2 hop
    | unary hop => exact beq_iff_eq.2 hop
    | _ => rfl

/-- The rules are about primitives, and consume the arguments that the primitives have. -/
theorem IsAbout.exists_arity? (h : rule.IsAbout head) :
    ∃ p, head = .primitive p ∧ p.arity? = some rule.arity := by
  cases h with
  | binary hop => exact ⟨_, rfl, congrArg some hop⟩
  | unary hop => exact ⟨_, rfl, congrArg some hop⟩
  | _ => exact ⟨_, rfl, rfl⟩

/-- All rules but that for operators on two operands consume one argument. -/
theorem IsAbout.arity_eq_one (h : rule.IsAbout head) (hrule : rule ≠ binaryOperators) :
    rule.arity = 1 := by
  cases h with
  | binary _ => exact absurd rfl hrule
  | _ => rfl

/-- Every primitive that has arguments has one of the standard rules. -/
theorem exists_mem_standard {p : Primitive} {arity : Nat} (h : p.arity? = some arity) :
    ∃ rule ∈ standard, rule.IsAbout (.primitive p) := by
  cases p with
  | operator op =>
    by_cases hop : op.arity = 2
    · exact ⟨binaryOperators, by decide, .binary hop⟩
    · exact ⟨unaryOperators, by decide, .unary (Operator.arity_eq_one hop)⟩
  | branch => exact ⟨DeltaRule.branch, by decide, .branch⟩
  | fix => exact ⟨fixpoint, by decide, .fix⟩
  | bot | tuple _ => contradiction
  | isTuple size => exact ⟨tupleIntrospection, by decide, .isTuple size⟩
  | select size index => exact ⟨tupleIntrospection, by decide, .select size index⟩
  | isConstructor name => exact ⟨constructorIntrospection, by decide, .isConstructor name⟩
  | argOf name => exact ⟨constructorIntrospection, by decide, .argOf name⟩
  | isLiteral literal => exact ⟨literalDiscriminators, by decide, .isLiteral literal⟩

/-- What a rule requires before it looks at the arguments. -/
structure Applicable (rule : DeltaRule) (head : Constant) (args : List Term) : Prop where
  /-- The rule is about the constant. -/
  accepts : rule.accepts head = true
  /-- The arguments that it consumes are there. -/
  arity_le : rule.arity ≤ args.length
  /-- They are closed, unless the rule does not mind. -/
  closed : rule.needsClosed = true → ∀ arg ∈ args.take rule.arity, arg.isClosed = true

/-- The condition under which a rule answers. -/
theorem applicable_iff : Applicable rule head args
    ↔ (rule.accepts head && rule.arity ≤ args.length
      && (!rule.needsClosed || (args.take rule.arity).all Term.isClosed)) = true := by
  simp only [Bool.and_eq_true, decide_eq_true_eq, Bool.or_eq_true, Bool.not_eq_true',
    List.all_eq_true]
  constructor
  · rintro ⟨haccepts, harity, hclosed⟩
    refine ⟨⟨haccepts, harity⟩, ?_⟩
    cases hneeds : rule.needsClosed with
    | true => exact .inr (hclosed hneeds)
    | false => exact .inl rfl
  · rintro ⟨⟨haccepts, harity⟩, hclosed⟩
    refine ⟨haccepts, harity, fun hneeds => ?_⟩
    rw [hneeds] at hclosed
    exact hclosed.resolve_left (by decide)

/-- An answer that is not declined is that to the arguments that the rule consumes; the arguments
left are applied to the result. -/
theorem respond_cases (rule : DeltaRule) (head : Constant) (args : List Term) :
    (rule.respond head args = .declined
        ∧ (Applicable rule head args → rule.apply head (args.take rule.arity) = .declined))
      ∨ Applicable rule head args
        ∧ ((∃ result, rule.apply head (args.take rule.arity) = .reduced result
            ∧ rule.respond head args = .reduced (result.applyAll (args.drop rule.arity)))
          ∨ ∃ index, rule.apply head (args.take rule.arity) = .needsArgument index
            ∧ rule.respond head args = .needsArgument index) := by
  rw [respond, applicable_iff]
  -- only an answer that is no refusal tells that the rule applies
  split
  · next happlicable =>
    cases rule.apply head (args.take rule.arity) with
    | reduced result => exact .inr ⟨happlicable, .inl ⟨result, rfl, rfl⟩⟩
    | declined => exact .inl ⟨rfl, fun _ => rfl⟩
    | needsArgument index => exact .inr ⟨happlicable, .inr ⟨index, rfl, rfl⟩⟩
  · next hnot => exact .inl ⟨rfl, fun happlicable => absurd happlicable hnot⟩

/-- A rule that reduces does so on the arguments that it consumes. -/
theorem respond_eq_reduced {t : Term} (h : rule.respond head args = .reduced t) :
    Applicable rule head args
      ∧ ∃ result, rule.apply head (args.take rule.arity) = .reduced result
        ∧ t = result.applyAll (args.drop rule.arity) := by
  rcases respond_cases rule head args with
    ⟨hdeclined, -⟩ | ⟨happlicable, ⟨result, happly, hrespond⟩ | ⟨index, -, hrespond⟩⟩
  · rw [h] at hdeclined
    contradiction
  · rw [h] at hrespond
    exact ⟨happlicable, result, happly, Outcome.reduced.inj hrespond⟩
  · rw [h] at hrespond
    contradiction

/-- A rule that applies and still declines does so for the arguments that it consumes. -/
theorem Applicable.apply_eq_declined (h : Applicable rule head args)
    (hrespond : rule.respond head args = .declined) :
    rule.apply head (args.take rule.arity) = .declined := by
  rcases respond_cases rule head args with
    ⟨-, hdeclined⟩ | ⟨-, ⟨result, -, heq⟩ | ⟨index, -, heq⟩⟩
  · exact hdeclined h
  · rw [hrespond] at heq
    contradiction
  · rw [hrespond] at heq
    contradiction

end DeltaRule

/-! ## Shapes -/

/-- The shapes of a constant applied to arguments. -/
theorem Constant.shape_cases (c : Constant) (args : List Term) :
    (∃ value, c = .literal value ∧ args = [] ∧ c.shape args = .literal value)
      ∨ (∃ size, c = .primitive (.tuple size) ∧ args.length = size
        ∧ c.shape args = .tuple size args)
      ∨ (∃ name, c = .constructor name ∧ c.shape args = .data name args)
      ∨ c.shape args = .function ∨ c.shape args = .pending := by
  rw [Constant.shape.eq_def]
  split
  · next value =>
    split
    · next hargs => exact .inl ⟨value, rfl, List.isEmpty_iff.1 hargs, rfl⟩
    · exact .inr (.inr (.inr (.inr rfl)))
  · next name => exact .inr (.inr (.inl ⟨name, rfl, rfl⟩))
  · next size =>
    split
    · next hlength => exact .inr (.inl ⟨size, rfl, hlength, rfl⟩)
    · split
      · exact .inr (.inr (.inr (.inl rfl)))
      · exact .inr (.inr (.inr (.inr rfl)))
  · split
    · split
      · exact .inr (.inr (.inr (.inl rfl)))
      · exact .inr (.inr (.inr (.inr rfl)))
    · exact .inr (.inr (.inr (.inr rfl)))

/-- A primitive that has arguments is a function until they are there. -/
theorem Constant.shape_of_arity? {p : Primitive} {arity : Nat} (h : p.arity? = some arity)
    (args : List Term) :
    (Constant.primitive p).shape args = if args.length < arity then .function else .pending := by
  cases p with
  | bot | tuple _ => contradiction
  | _ => rw [shape]; simp only [h]; exact nofun

/-- A constant that a rule may reduce is pending. -/
theorem DeltaRule.Applicable.shape_eq_pending {rule : DeltaRule} {head : Constant}
    {args : List Term} (h : rule.Applicable head args) : head.shape args = .pending := by
  obtain ⟨p, rfl, harity⟩ := (accepts_iff_isAbout.1 h.accepts).exists_arity?
  rw [Constant.shape_of_arity? harity, if_neg (Nat.not_lt_of_le h.arity_le)]

namespace Term

variable {t : Term}

/-- The shape of a constant applied to arguments. -/
theorem shape_const_applyAll (c : Constant) (args : List Term) :
    ((Term.const c).applyAll args).shape = c.shape args := by
  rw [shape, head_applyAll, args_applyAll]
  rfl

/-- The shapes of a term. Every shape but that of a function determines an evaluated term. -/
theorem shape_cases (t : Term) :
    (∃ value, t = .literal value ∧ t.shape = .literal value)
      ∨ (∃ components : List Term,
        t = (Term.primitive (.tuple components.length)).applyAll components
          ∧ t.shape = .tuple components.length components)
      ∨ (∃ name fields, t = (Term.const (.constructor name)).applyAll fields
        ∧ t.shape = .data name fields)
      ∨ t.shape = .function ∨ t.shape = .pending := by
  have hwhole := t.applyAll_head_args
  rw [shape]
  cases hhead : t.head with
  | const c =>
    rw [hhead] at hwhole
    rcases c.shape_cases t.args with ⟨value, rfl, hargs, hshape⟩ | ⟨size, rfl, rfl, hshape⟩
      | ⟨name, rfl, hshape⟩ | hshape
    · rw [hargs, applyAll_nil] at hwhole
      exact .inl ⟨value, hwhole.symm, hshape⟩
    · exact .inr (.inl ⟨t.args, hwhole.symm, hshape⟩)
    · exact .inr (.inr (.inl ⟨name, t.args, hwhole.symm, hshape⟩))
    · exact .inr (.inr (.inr hshape))
  | abs param body =>
    dsimp only
    split
    · exact .inr (.inr (.inr (.inl rfl)))
    · exact .inr (.inr (.inr (.inr rfl)))
  | var _ | app _ _ => exact .inr (.inr (.inr (.inr rfl)))

/-- A function is an abstraction, or a primitive without all of its arguments. -/
theorem function_cases (h : t.shape = .function) :
    (∃ param body, t = .abs param body)
      ∨ ∃ p count, t = (Term.primitive p).applyAll t.args ∧ t.args.length < count
        ∧ (p = .tuple count ∨ p.arity? = some count) := by
  have hwhole := t.applyAll_head_args
  rw [shape] at h
  -- the shape of a spine is decided at its head
  cases hhead : t.head with
  | abs param body =>
    rw [hhead] at h hwhole
    dsimp only at h
    split at h
    · next hargs =>
      rw [List.isEmpty_iff.1 hargs, applyAll_nil] at hwhole
      exact .inl ⟨param, body, hwhole.symm⟩
    · contradiction
  | const c =>
    rw [hhead] at h hwhole
    dsimp only at h
    rw [Constant.shape.eq_def] at h
    split at h
    · split at h <;> contradiction
    · contradiction
    · next size =>
      split at h
      · contradiction
      · split at h
        · next hlt => exact .inr ⟨_, size, hwhole.symm, hlt, .inl rfl⟩
        · contradiction
    · next p _ =>
      split at h
      · next arity harity =>
        split at h
        · next hlt => exact .inr ⟨p, arity, hwhole.symm, hlt, .inr harity⟩
        · contradiction
      · contradiction
  | var _ | app _ _ =>
    rw [hhead] at h
    contradiction

theorem eq_of_shape_eq_literal {value : Literal} (h : t.shape = .literal value) :
    t = .literal value := by
  rcases t.shape_cases with ⟨_, ht, hshape⟩ | ⟨_, -, hshape⟩ | ⟨_, _, -, hshape⟩ | hshape | hshape
    <;> rw [h] at hshape
  · rw [ht, Shape.literal.inj hshape]
  all_goals contradiction

theorem eq_of_shape_eq_tuple {size : Nat} {components : List Term}
    (h : t.shape = .tuple size components) :
    components.length = size ∧ t = (Term.primitive (.tuple size)).applyAll components := by
  rcases t.shape_cases with ⟨_, -, hshape⟩ | ⟨_, ht, hshape⟩ | ⟨_, _, -, hshape⟩ | hshape | hshape
    <;> rw [h] at hshape
  · contradiction
  · obtain ⟨rfl, rfl⟩ := Shape.tuple.inj hshape
    exact ⟨rfl, ht⟩
  all_goals contradiction

theorem eq_of_shape_eq_data {name : String} {fields : List Term}
    (h : t.shape = .data name fields) :
    t = (Term.const (.constructor name)).applyAll fields := by
  rcases t.shape_cases with ⟨_, -, hshape⟩ | ⟨_, -, hshape⟩ | ⟨_, _, ht, hshape⟩ | hshape | hshape
    <;> rw [h] at hshape
  · contradiction
  · contradiction
  · obtain ⟨rfl, rfl⟩ := Shape.data.inj hshape
    exact ht
  all_goals contradiction

end Term

/-! ## Strict arguments -/

/-- What follows from a literal follows from an argument that is one. -/
theorem withLiteral_eq_reduced {args : List Term} {i : Nat} {answer : Literal → Outcome}
    {t : Term} (h : withLiteral args i answer = .reduced t) :
    ∃ value, args[i]? = some (.literal value) ∧ answer value = .reduced t := by
  rw [withLiteral] at h
  split at h
  · next value hshape =>
    obtain ⟨arg, harg, hliteral⟩ := Option.map_eq_some_iff.1 hshape
    rw [Term.eq_of_shape_eq_literal hliteral] at harg
    exact ⟨value, harg, h⟩
  · contradiction
  · contradiction

/-- An argument that is there leads to no answer if nothing follows from the literal that it is,
or if it is evaluated to something else. -/
theorem withLiteral_eq_declined {args : List Term} {i : Nat} {arg : Term}
    {answer : Literal → Outcome} (harg : args[i]? = some arg)
    (h : withLiteral args i answer = .declined) :
    (∃ value, arg = .literal value ∧ answer value = .declined)
      ∨ arg.shape ≠ .pending ∧ ∀ value, arg.shape ≠ .literal value := by
  rw [withLiteral, harg, Option.map_some] at h
  cases hshape : arg.shape with
  | literal value =>
    rw [hshape] at h
    exact .inl ⟨value, Term.eq_of_shape_eq_literal hshape, h⟩
  | pending =>
    rw [hshape] at h
    contradiction
  | tuple _ _ | data _ _ | function =>
    exact .inr ⟨Shape.noConfusion, fun _ => Shape.noConfusion⟩

/-- An argument that is asked for is there and pending, for this answer or one that follows from
a literal. -/
theorem withLiteral_eq_needsArgument {args : List Term} {i j : Nat} {answer : Literal → Outcome}
    (h : withLiteral args i answer = .needsArgument j) :
    (∃ arg, args[j]? = some arg ∧ arg.shape = .pending)
      ∨ ∃ value, answer value = .needsArgument j := by
  rw [withLiteral] at h
  split at h
  · next value _ => exact .inr ⟨value, h⟩
  · next hshape =>
    obtain ⟨arg, harg, hpending⟩ := Option.map_eq_some_iff.1 hshape
    rw [← Outcome.needsArgument.inj h]
    exact .inl ⟨arg, harg, hpending⟩
  · contradiction

/-! ## Tests and projections -/

namespace DeltaRule

variable {rule : DeltaRule} {c : Constant} {args : List Term} {shape : Shape} {t : Term}

theorem inspectTuple_isTuple_eq_reduced {size : Nat}
    (h : inspectTuple (.primitive (.isTuple size)) shape = .reduced t) :
    ∃ value, t = .truth value := by
  cases shape with
  | pending => contradiction
  | _ => exact ⟨_, (Outcome.reduced.inj h).symm⟩

/-- A projection of a tuple returns one of its components. -/
theorem inspectTuple_select_eq_reduced {size index : Nat}
    (h : inspectTuple (.primitive (.select size index)) shape = .reduced t) :
    ∃ i components, index = i + 1 ∧ shape = .tuple size components
      ∧ components[i]? = some t := by
  cases index with
  | zero => cases shape <;> contradiction
  | succ i =>
    cases shape with
    | tuple found components =>
      rw [inspectTuple] at h
      split at h
      · next hfound =>
        split at h
        · next component hcomponent =>
          rw [← Outcome.reduced.inj h]
          exact ⟨i, components, rfl, by rw [hfound], hcomponent⟩
        · contradiction
      · contradiction
    | literal _ | data _ _ | function | pending => contradiction

theorem inspectData_isConstructor_eq_reduced {name : String}
    (h : inspectData (.primitive (.isConstructor name)) shape = .reduced t) :
    ∃ value, t = .truth value := by
  cases shape with
  | pending => contradiction
  | _ => exact ⟨_, (Outcome.reduced.inj h).symm⟩

/-- A projection of data packs its fields. -/
theorem inspectData_argOf_eq_reduced {name : String}
    (h : inspectData (.primitive (.argOf name)) shape = .reduced t) :
    ∃ fields, shape = .data name fields ∧ t = fieldsTerm fields := by
  cases shape with
  | data found fields =>
    rw [inspectData] at h
    split at h
    · next hfound => exact ⟨fields, by rw [hfound], (Outcome.reduced.inj h).symm⟩
    · contradiction
  | literal _ | tuple _ _ | function | pending => contradiction

theorem inspectLiteral_eq_reduced {literal : Literal}
    (h : inspectLiteral (.primitive (.isLiteral literal)) shape = .reduced t) :
    ∃ value, t = .truth value := by
  cases shape with
  | pending => contradiction
  | _ => exact ⟨_, (Outcome.reduced.inj h).symm⟩

theorem inspectTuple_eq_needsArgument {i : Nat}
    (h : inspectTuple c shape = .needsArgument i) : i = 0 ∧ shape = .pending := by
  rw [inspectTuple.eq_def] at h
  split at h
  · exact ⟨(Outcome.needsArgument.inj h).symm, rfl⟩
  · contradiction
  · contradiction
  · split at h
    · split at h <;> contradiction
    · contradiction
  · contradiction

theorem inspectData_eq_needsArgument {i : Nat}
    (h : inspectData c shape = .needsArgument i) : i = 0 ∧ shape = .pending := by
  rw [inspectData.eq_def] at h
  split at h
  · exact ⟨(Outcome.needsArgument.inj h).symm, rfl⟩
  · contradiction
  · contradiction
  · split at h <;> contradiction
  · contradiction

theorem inspectLiteral_eq_needsArgument {i : Nat}
    (h : inspectLiteral c shape = .needsArgument i) : i = 0 ∧ shape = .pending := by
  rw [inspectLiteral.eq_def] at h
  split at h
  · contradiction
  · exact ⟨(Outcome.needsArgument.inj h).symm, rfl⟩
  · contradiction
  · contradiction

/-- A rule asks only for an argument that is there and pending. -/
theorem apply_eq_needsArgument (hc : IsAbout rule c) {i : Nat}
    (h : rule.apply c args = .needsArgument i) :
    ∃ arg, args[i]? = some arg ∧ arg.shape = .pending := by
  cases hc with
  | binary _ =>
    -- the second operand is asked for below the first one
    rcases withLiteral_eq_needsArgument h with harg | ⟨left, h⟩
    · exact harg
    · split at h
      · contradiction
      · rcases withLiteral_eq_needsArgument h with harg | ⟨right, h⟩
        · exact harg
        · split at h <;> contradiction
  | unary _ | branch =>
    rcases withLiteral_eq_needsArgument h with harg | ⟨value, h⟩
    · exact harg
    · split at h <;> contradiction
  | fix => cases args <;> contradiction
  | isTuple _ | select _ _ =>
    cases args with
    | nil => contradiction
    | cons arg args =>
      obtain ⟨rfl, hshape⟩ := inspectTuple_eq_needsArgument h
      exact ⟨arg, rfl, hshape⟩
  | isConstructor _ | argOf _ =>
    cases args with
    | nil => contradiction
    | cons arg args =>
      obtain ⟨rfl, hshape⟩ := inspectData_eq_needsArgument h
      exact ⟨arg, rfl, hshape⟩
  | isLiteral _ =>
    cases args with
    | nil => contradiction
    | cons arg args =>
      obtain ⟨rfl, hshape⟩ := inspectLiteral_eq_needsArgument h
      exact ⟨arg, rfl, hshape⟩

/-- The same for an answer to all of the arguments. -/
theorem respond_eq_needsArgument {i : Nat} (h : rule.respond c args = .needsArgument i) :
    ∃ arg, args[i]? = some arg ∧ arg.shape = .pending := by
  rcases rule.respond_cases c args with
    ⟨hrespond, -⟩ | ⟨happlicable, ⟨result, -, hrespond⟩ | ⟨j, happly, hrespond⟩⟩
  · rw [h] at hrespond
    contradiction
  · rw [h] at hrespond
    contradiction
  · rw [h] at hrespond
    obtain rfl := Outcome.needsArgument.inj hrespond
    obtain ⟨arg, harg, hshape⟩ :=
      apply_eq_needsArgument (accepts_iff_isAbout.1 happlicable.accepts) happly
    rw [List.getElem?_take] at harg
    split at harg
    · exact ⟨arg, harg, hshape⟩
    · contradiction

end DeltaRule

end Clausal
