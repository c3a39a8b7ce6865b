import Clausal.Proofs.Delta.Rule

/-!
# Answers from kinds

Of the arguments that it is strict in, a delta rule looks at no more than their kind: which literal,
tuple, data or function they are. The answer says which part of the first argument is the result.
So an argument may reduce further, or be replaced by one of the same kind, and the answer stays.

## Main results

* `DeltaRule.apply_eq_reduced_iff`: the rules but for the fixpoint answer from the kinds;
* `DeltaRule.needsArgument_of_kinds`: what they ask for depends on the kinds as well;
* `Constant.answer?_mono`: an answer stays when pending arguments are evaluated;
* `DeltaRule.apply_of_below`: only an argument that is asked for keeps a rule from an answer that it
  gives when pending arguments are evaluated.
-/

namespace Clausal

/-- How far a term is evaluated, without its parts. -/
inductive Kind
  | literal (value : Literal)
  /-- A tuple with all of its components. -/
  | tuple (size : Nat)
  /-- A data constructor applied to its fields. -/
  | data (constructor : String)
  /-- An abstraction, or a primitive without all of its arguments. -/
  | function
  /-- A term that may have a step, or that is stuck. -/
  | pending
  deriving DecidableEq

/-- A shape without its parts. -/
def Shape.kind : Shape → Kind
  | literal value => .literal value
  | tuple size _ => .tuple size
  | data constructor _ => .data constructor
  | function => .function
  | pending => .pending

theorem Shape.kind_eq_pending {shape : Shape} : shape.kind = .pending ↔ shape = .pending := by
  cases shape <;> simp [kind]

theorem Shape.eq_pending_iff_of_kind {shape shape' : Shape} (h : shape.kind = shape'.kind) :
    shape = .pending ↔ shape' = .pending := by
  rw [← kind_eq_pending, h, kind_eq_pending]

theorem Shape.kind_eq_tuple {shape : Shape} {size : Nat} (h : shape.kind = .tuple size) :
    ∃ components, shape = .tuple size components := by
  cases shape with
  | tuple size' components => exact ⟨components, by rw [Kind.tuple.inj h]⟩
  | literal _ | data _ _ | function | pending => contradiction

/-- The kind of a constant applied to a number of arguments. -/
def Constant.kind (c : Constant) (count : Nat) : Kind :=
  match c with
  | .literal value => if count = 0 then .literal value else .pending
  | .constructor name => .data name
  | .primitive (.tuple size) =>
    if count = size then .tuple size else if count < size then .function else .pending
  | .primitive p =>
    match p.arity? with
    | some arity => if count < arity then .function else .pending
    | none => .pending

/-- The kind of a spine depends on the number of arguments only. -/
theorem Constant.kind_shape (c : Constant) (args : List Term) :
    (c.shape args).kind = c.kind args.length := by
  cases c with
  | literal value => cases args <;> rfl
  | constructor name => rfl
  | primitive p =>
    cases p with
    | tuple size =>
      rw [shape, kind]
      split
      · rfl
      · split <;> rfl
    | bot => rfl
    | _ =>
      simp only [shape, kind, Primitive.arity?]
      split <;> rfl

/-- Two spines with the same head and as many arguments are evaluated equally far. -/
theorem Term.kind_shape_eq {t u : Term} (hhead : t.head = u.head)
    (hlength : t.args.length = u.args.length) : t.shape.kind = u.shape.kind := by
  rw [shape, shape, hhead]
  cases u.head with
  | const c =>
    dsimp only
    rw [Constant.kind_shape, Constant.kind_shape, hlength]
  | abs _ _ =>
    have hempty : t.args.isEmpty = u.args.isEmpty := by
      rw [Bool.eq_iff_iff, List.isEmpty_iff_length_eq_zero, List.isEmpty_iff_length_eq_zero,
        hlength]
    rw [hempty]
  | var _ | app _ _ => rfl

/-- A constant with arguments to spare is no function. -/
theorem Constant.kind_of_arity? {p : Primitive} {arity : Nat} (h : p.arity? = some arity)
    (count : Nat) :
    (Constant.primitive p).kind count = if count < arity then .function else .pending := by
  cases p with
  | bot | tuple _ => contradiction
  | _ => rw [kind]; simp only [h]; exact nofun

/-- The result of a delta rule, as a part of what it looks at. -/
inductive Answer
  | literal (value : Literal)
  /-- The function that picks the first or the second of two arguments. -/
  | choice (first : Bool)
  /-- A component of the first argument, counted from 0. -/
  | component (index : Nat)
  /-- All fields of the first argument. -/
  | fields
  deriving DecidableEq

/-- The result of an operator on operands of given kinds. -/
def Operator.answer? (op : Operator) : List Kind → Option Literal
  | [.literal operand] =>
    match op, operand with
    | .not, .bool value => some (.bool !value)
    | .negate, .int value => some (.int (-value))
    | _, _ => none
  | [.literal left, right] =>
    match op.shortcut? left with
    | some value => some (.bool value)
    | none =>
      match right with
      | .literal right => op.evaluate? left right
      | _ => none
  | _ => none

/-- The answer of the rule for a constant to arguments of given kinds. -/
def Constant.answer? : Constant → List Kind → Option Answer
  | .primitive (.operator op), kinds => (op.answer? kinds).map .literal
  | .primitive .branch, [.literal (.bool value)] => some (.choice value)
  | .primitive (.isTuple _), [.pending] => none
  | .primitive (.isTuple expected), [.tuple size] => some (.literal (.bool (size == expected)))
  | .primitive (.isTuple _), [_] => some (.literal (.bool false))
  | .primitive (.select size (index + 1)), [.tuple found] =>
    if found = size ∧ index < size then some (.component index) else none
  | .primitive (.isConstructor _), [.pending] => none
  | .primitive (.isConstructor expected), [.data name] =>
    some (.literal (.bool (name == expected)))
  | .primitive (.isConstructor _), [_] => some (.literal (.bool false))
  | .primitive (.argOf expected), [.data name] => if name = expected then some .fields else none
  | .primitive (.isLiteral _), [.pending] => none
  | .primitive (.isLiteral expected), [.literal found] =>
    some (.literal (.bool (expected.agrees found)))
  | .primitive (.isLiteral _), [_] => some (.literal (.bool false))
  | _, _ => none

/-! ## The answer for each primitive -/

namespace Constant

-- all but the operators look at the kind of one argument
variable (kind : Kind)

theorem answer?_operator (op : Operator) (kinds : List Kind) :
    answer? (.primitive (.operator op)) kinds = (op.answer? kinds).map .literal := rfl

theorem answer?_branch : answer? (.primitive .branch) [kind] = match kind with
    | .literal (.bool value) => some (.choice value)
    | _ => none := by
  rcases kind with (_ | _ | _ | _) | _ | _ | _ | _ <;> rfl

theorem answer?_isTuple (expected : Nat) :
    answer? (.primitive (.isTuple expected)) [kind] = match kind with
      | .pending => none
      | .tuple size => some (.literal (.bool (size == expected)))
      | _ => some (.literal (.bool false)) := by
  cases kind <;> rfl

theorem answer?_select_zero (size : Nat) :
    answer? (.primitive (.select size 0)) [kind] = none := by
  cases kind <;> rfl

theorem answer?_select_succ (size index : Nat) :
    answer? (.primitive (.select size (index + 1))) [kind] = match kind with
      | .tuple found => if found = size ∧ index < size then some (.component index) else none
      | _ => none := by
  cases kind <;> rfl

theorem answer?_isConstructor (expected : String) :
    answer? (.primitive (.isConstructor expected)) [kind] = match kind with
      | .pending => none
      | .data name => some (.literal (.bool (name == expected)))
      | _ => some (.literal (.bool false)) := by
  cases kind <;> rfl

theorem answer?_argOf (expected : String) :
    answer? (.primitive (.argOf expected)) [kind] = match kind with
      | .data name => if name = expected then some .fields else none
      | _ => none := by
  cases kind <;> rfl

theorem answer?_isLiteral (expected : Literal) :
    answer? (.primitive (.isLiteral expected)) [kind] = match kind with
      | .pending => none
      | .literal found => some (.literal (.bool (expected.agrees found)))
      | _ => some (.literal (.bool false)) := by
  cases kind <;> rfl

end Constant

/-- The term of an answer, from the parts of the first argument. -/
def Answer.term? (parts : List Term) : Answer → Option Term
  | literal value => some (.literal value)
  | choice first => some (if first then firstOfTwo else secondOfTwo)
  | component index => parts[index]?
  | fields => some (fieldsTerm parts)

/-! ## The rules answer from the kinds -/

theorem Term.args_of_shape_eq_tuple {t : Term} {size : Nat} {components : List Term}
    (h : t.shape = .tuple size components) : t.args = components ∧ components.length = size := by
  obtain ⟨hlength, ht⟩ := eq_of_shape_eq_tuple h
  refine ⟨?_, hlength⟩
  rw [ht, args_applyAll]
  rfl

theorem Term.args_of_shape_eq_data {t : Term} {name : String} {fields : List Term}
    (h : t.shape = .data name fields) : t.args = fields := by
  rw [eq_of_shape_eq_data h, args_applyAll]
  rfl

/-- A constant with a rule has arguments. -/
theorem Primitive.arity?_ne_zero (p : Primitive) : p.arity? ≠ some 0 := by
  cases p with
  | operator op => cases op <;> decide
  | _ => exact nofun

/-- An operator is evaluated with as many operands as it has. -/
theorem Operator.length_of_answer? {op : Operator} {kinds : List Kind} {result : Literal}
    (h : op.answer? kinds = some result) : kinds.length = op.arity := by
  rw [answer?.eq_def] at h
  split at h
  · split at h
    · rfl
    · rfl
    · contradiction
  · next left right =>
    cases op with
    | not | negate =>
      -- neither operator has a result on two literals
      cases right with
      | literal right => cases left <;> cases right <;> contradiction
      | tuple _ | data _ | function | pending => contradiction
    | _ => rfl
  · contradiction

/-- An answer comes from as many arguments as the constant has. -/
theorem Constant.arity_of_answer? {c : Constant} {kinds : List Kind} {answer : Answer}
    (h : c.answer? kinds = some answer) :
    ∃ p, c = .primitive p ∧ p.arity? = some kinds.length := by
  rw [answer?.eq_def] at h
  split at h
  · next op kinds =>
    obtain ⟨result, hresult, -⟩ := Option.map_eq_some_iff.1 h
    exact ⟨_, rfl, congrArg some (Operator.length_of_answer? hresult).symm⟩
  all_goals first | exact ⟨_, rfl, rfl⟩ | contradiction

/-- A component is the answer to a tuple that has it. -/
theorem Constant.answer?_eq_component {c : Constant} {kinds : List Kind} {index : Nat}
    (h : c.answer? kinds = some (.component index)) :
    ∃ size, kinds = [.tuple size] ∧ index < size := by
  rw [answer?.eq_def] at h
  -- only a projection of a tuple answers with a component
  split at h <;> simp only [Option.map_eq_some_iff, Option.ite_none_right_eq_some,
    Option.some.injEq, Answer.component.injEq, reduceCtorEq, and_false, exists_false] at h
  next size index found =>
    obtain ⟨⟨rfl, hindex⟩, rfl⟩ := h
    exact ⟨found, rfl, hindex⟩

/-- Of two kinds, whether the second is that of a term evaluated at least as far. -/
def Kind.Below (kind kind' : Kind) : Prop := kind = .pending ∨ kind = kind'

/-- Nothing follows from a pending argument in the first place. -/
theorem Constant.answer?_pending_cons (c : Constant) (kinds : List Kind) :
    c.answer? (.pending :: kinds) = none := by
  rw [answer?.eq_def]
  split
  · rfl
  all_goals first | rfl | simp_all

/-- What follows from a pending second operand follows from any. -/
theorem Operator.answer?_of_pending {op : Operator} {left : Kind} {result : Literal}
    (h : op.answer? [left, .pending] = some result) (right : Kind) :
    op.answer? [left, right] = some result := by
  cases left with
  | literal left =>
    simp only [answer?] at h ⊢
    cases hshortcut : op.shortcut? left with
    | some value =>
      rw [hshortcut] at h
      exact h
    | none =>
      rw [hshortcut] at h
      contradiction
  | tuple _ | data _ | function | pending => contradiction

/-- An answer stays when pending arguments are evaluated. -/
theorem Constant.answer?_mono {c : Constant} {kinds kinds' : List Kind} {answer : Answer}
    (hkinds : List.Forall₂ Kind.Below kinds kinds') (h : c.answer? kinds = some answer) :
    c.answer? kinds' = some answer := by
  cases hkinds with
  | nil => exact h
  | @cons first first' _ _ hfirst hrest =>
    rcases hfirst with rfl | rfl
    · rw [answer?_pending_cons] at h
      contradiction
    cases hrest with
    | nil => exact h
    | @cons second second' rest rest' hsecond hrest =>
      rcases hsecond with rfl | rfl
      · -- only an operator has two arguments
        obtain ⟨p, rfl, harity⟩ := arity_of_answer? h
        cases p with
        | operator op =>
          obtain ⟨result, hresult, rfl⟩ := Option.map_eq_some_iff.1 h
          cases hrest with
          | nil =>
            exact Option.map_eq_some_iff.2 ⟨result, Operator.answer?_of_pending hresult second', rfl⟩
          | cons _ _ => cases first <;> contradiction
        | _ => simp [Primitive.arity?] at harity
      · cases hrest with
        | nil => exact h
        | cons _ _ =>
          obtain ⟨p, rfl, harity⟩ := arity_of_answer? h
          cases p with
          | operator op => cases op <;> simp [Primitive.arity?, Operator.arity] at harity
          | _ => simp [Primitive.arity?] at harity

/-- Of an argument that has to be a literal no more is seen than its kind. -/
theorem withLiteral_eq_match_kind (args : List Term) (i : Nat) (answer : Literal → Outcome) :
    withLiteral args i answer = match (args.map fun arg => arg.shape.kind)[i]? with
      | some (.literal value) => answer value
      | some .pending => .needsArgument i
      | _ => .declined := by
  rw [withLiteral, List.getElem?_map]
  cases args[i]? with
  | none => rfl
  | some arg =>
    rw [Option.map_some, Option.map_some]
    cases arg.shape <;> rfl

theorem withLiteral_congr {args args' : List Term}
    (h : (args.map fun arg => arg.shape.kind) = args'.map fun arg => arg.shape.kind) (i : Nat)
    (answer : Literal → Outcome) : withLiteral args i answer = withLiteral args' i answer := by
  rw [withLiteral_eq_match_kind, withLiteral_eq_match_kind, h]

namespace DeltaRule

variable {rule : DeltaRule} {c : Constant} {args : List Term} {t : Term}

theorem applyBinary_eq_reduced_iff {op : Operator} {left right : Term} :
    applyBinary op [left, right] = .reduced t
      ↔ ∃ result, op.answer? [left.shape.kind, right.shape.kind] = some result
        ∧ t = .literal result := by
  simp only [applyBinary, withLiteral, List.getElem?_cons_zero, List.getElem?_cons_succ,
    Option.map_some]
  cases left.shape with
  | literal left =>
    simp only [Shape.kind, Operator.answer?]
    cases op.shortcut? left with
    | some value => simp [Outcome.truth, Term.truth, eq_comm]
    | none =>
      cases right.shape with
      | literal right =>
        dsimp only
        cases op.evaluate? left right <;> simp [eq_comm]
      | tuple _ _ | data _ _ | function | pending => simp
  | tuple _ _ | data _ _ | function | pending => simp [Shape.kind, Operator.answer?]

theorem applyUnary_eq_reduced_iff {op : Operator} {operand : Term} :
    applyUnary op [operand] = .reduced t
      ↔ ∃ result, op.answer? [operand.shape.kind] = some result ∧ t = .literal result := by
  simp only [applyUnary, withLiteral, List.getElem?_cons_zero, Option.map_some]
  cases operand.shape with
  | literal operand =>
    simp only [Shape.kind, Operator.answer?]
    cases op <;> cases operand <;> simp [Outcome.truth, Term.truth, eq_comm]
  | tuple _ _ | data _ _ | function | pending => simp [Shape.kind, Operator.answer?]

theorem applyBranch_eq_reduced_iff {condition : Term} {parts : List Term} :
    applyBranch [condition] = .reduced t
      ↔ ∃ answer, Constant.answer? (.primitive .branch) [condition.shape.kind] = some answer
        ∧ answer.term? parts = some t := by
  simp only [applyBranch, withLiteral, List.getElem?_cons_zero, Option.map_some]
  cases condition.shape with
  | literal value =>
    cases value with
    | bool value =>
      cases value <;> simp [Shape.kind, Constant.answer?_branch, Answer.term?, eq_comm]
    | int _ | float _ | char _ => simp [Shape.kind, Constant.answer?_branch]
  | tuple _ _ | data _ _ | function | pending => simp [Shape.kind, Constant.answer?_branch]

theorem inspectTuple_isTuple_eq_reduced_iff {size : Nat} {shape : Shape} {parts : List Term} :
    inspectTuple (.primitive (.isTuple size)) shape = .reduced t
      ↔ ∃ answer, Constant.answer? (.primitive (.isTuple size)) [shape.kind] = some answer
        ∧ answer.term? parts = some t := by
  cases shape <;>
    simp [inspectTuple, Shape.kind, Constant.answer?_isTuple, Answer.term?, Outcome.truth,
      Term.truth]

/-- A projection of a tuple answers if the tuple has the size and the index is within it. -/
theorem inspectTuple_select_eq_reduced_iff {size index : Nat} {arg : Term} :
    inspectTuple (.primitive (.select size index)) arg.shape = .reduced t
      ↔ ∃ answer, Constant.answer? (.primitive (.select size index)) [arg.shape.kind] = some answer
        ∧ answer.term? arg.args = some t := by
  cases index with
  | zero => cases arg.shape <;> simp [inspectTuple, Constant.answer?_select_zero]
  | succ i =>
    cases hshape : arg.shape with
    | tuple found components =>
      obtain ⟨hargs, hfound⟩ := Term.args_of_shape_eq_tuple hshape
      rw [hargs]
      simp only [inspectTuple, Shape.kind, Constant.answer?_select_succ]
      by_cases hsize : found = size
      · by_cases hi : i < size
        · have hi' : i < components.length := by omega
          simp [hsize, hi, Answer.term?, hi']
        · have hi' : components.length ≤ i := by omega
          simp [hsize, hi, hi']
      · simp [hsize]
    | literal _ | data _ _ | function | pending =>
      simp [inspectTuple, Shape.kind, Constant.answer?_select_succ]

theorem inspectData_isConstructor_eq_reduced_iff {name : String} {shape : Shape}
    {parts : List Term} :
    inspectData (.primitive (.isConstructor name)) shape = .reduced t
      ↔ ∃ answer, Constant.answer? (.primitive (.isConstructor name)) [shape.kind] = some answer
        ∧ answer.term? parts = some t := by
  cases shape <;>
    simp [inspectData, Shape.kind, Constant.answer?_isConstructor, Answer.term?, Outcome.truth,
      Term.truth]

/-- A projection of data answers if the data has the constructor. -/
theorem inspectData_argOf_eq_reduced_iff {name : String} {arg : Term} :
    inspectData (.primitive (.argOf name)) arg.shape = .reduced t
      ↔ ∃ answer, Constant.answer? (.primitive (.argOf name)) [arg.shape.kind] = some answer
        ∧ answer.term? arg.args = some t := by
  cases hshape : arg.shape with
  | data found fields =>
    rw [Term.args_of_shape_eq_data hshape]
    simp only [inspectData, Shape.kind, Constant.answer?_argOf]
    by_cases hfound : found = name <;> simp [hfound, Answer.term?]
  | literal _ | tuple _ _ | function | pending =>
    simp [inspectData, Shape.kind, Constant.answer?_argOf]

theorem inspectLiteral_isLiteral_eq_reduced_iff {literal : Literal} {shape : Shape}
    {parts : List Term} :
    inspectLiteral (.primitive (.isLiteral literal)) shape = .reduced t
      ↔ ∃ answer, Constant.answer? (.primitive (.isLiteral literal)) [shape.kind] = some answer
        ∧ answer.term? parts = some t := by
  cases shape <;>
    simp [inspectLiteral, Shape.kind, Constant.answer?_isLiteral, Answer.term?, Outcome.truth,
      Term.truth]

/-- The rules but for the fixpoint answer from the kinds of their arguments. -/
theorem apply_eq_reduced_iff (hc : rule.IsAbout c) (hfix : rule ≠ .fixpoint)
    (hlength : args.length = rule.arity) :
    rule.apply c args = .reduced t
      ↔ ∃ answer, c.answer? (args.map fun arg => arg.shape.kind) = some answer
        ∧ answer.term? (args.head?.elim [] Term.args) = some t := by
  cases hc with
  | binary hop =>
    obtain ⟨left, right, rfl⟩ := List.length_eq_two.1 hlength
    simp [apply, applyBinary_eq_reduced_iff, Constant.answer?_operator, Answer.term?, eq_comm]
  | fix => exact absurd rfl hfix
  -- the other rules look at one argument
  | unary hop =>
    obtain ⟨operand, rfl⟩ := List.length_eq_one_iff.1 hlength
    simp [apply, applyUnary_eq_reduced_iff, Constant.answer?_operator, Answer.term?, eq_comm]
  | branch =>
    obtain ⟨condition, rfl⟩ := List.length_eq_one_iff.1 hlength
    exact applyBranch_eq_reduced_iff
  | isTuple size =>
    obtain ⟨arg, rfl⟩ := List.length_eq_one_iff.1 hlength
    exact inspectTuple_isTuple_eq_reduced_iff
  | select size index =>
    obtain ⟨arg, rfl⟩ := List.length_eq_one_iff.1 hlength
    exact inspectTuple_select_eq_reduced_iff
  | isConstructor name =>
    obtain ⟨arg, rfl⟩ := List.length_eq_one_iff.1 hlength
    exact inspectData_isConstructor_eq_reduced_iff
  | argOf name =>
    obtain ⟨arg, rfl⟩ := List.length_eq_one_iff.1 hlength
    exact inspectData_argOf_eq_reduced_iff
  | isLiteral literal =>
    obtain ⟨arg, rfl⟩ := List.length_eq_one_iff.1 hlength
    exact inspectLiteral_isLiteral_eq_reduced_iff

/-- What follows from the kinds of the arguments is a term that they have the parts for. -/
theorem exists_apply_eq_reduced {answer : Answer} (hc : rule.IsAbout c) (hfix : rule ≠ .fixpoint)
    (hlength : args.length = rule.arity)
    (h : c.answer? (args.map fun arg => arg.shape.kind) = some answer) :
    ∃ t, rule.apply c args = .reduced t := by
  have hterm : ∃ t, answer.term? (args.head?.elim [] Term.args) = some t := by
    cases answer with
    | literal _ | choice _ | fields => exact ⟨_, rfl⟩
    | component index =>
      obtain ⟨size, hkinds, hindex⟩ := Constant.answer?_eq_component h
      obtain ⟨arg, rfl, hkind⟩ := List.map_eq_singleton_iff.1 hkinds
      obtain ⟨components, hshape⟩ := Shape.kind_eq_tuple hkind
      obtain ⟨hargs, rfl⟩ := Term.args_of_shape_eq_tuple hshape
      refine ⟨components[index], ?_⟩
      rw [List.head?_cons, Option.elim_some, hargs]
      exact List.getElem?_eq_getElem hindex
  obtain ⟨t, ht⟩ := hterm
  exact ⟨t, (apply_eq_reduced_iff hc hfix hlength).2 ⟨answer, h, ht⟩⟩

/-- Every rule but the fixpoint asks for its first argument as long as that is pending. -/
theorem apply_of_pending {first : Term} (hc : rule.IsAbout c) (hfix : rule ≠ .fixpoint)
    (hfirst : first.shape = .pending) (rest : List Term) :
    rule.apply c (first :: rest) = .needsArgument 0 := by
  cases hc with
  | fix => exact absurd rfl hfix
  | binary _ => simp [apply, applyBinary, withLiteral, hfirst]
  | unary _ => simp [apply, applyUnary, withLiteral, hfirst]
  | branch => simp [apply, applyBranch, withLiteral, hfirst]
  | isTuple _ | select _ _ => simp [apply, inspectTuple, hfirst]
  | isConstructor _ | argOf _ => simp [apply, inspectData, hfirst]
  | isLiteral _ => simp [apply, inspectLiteral, hfirst]

/-- What a rule asks for depends on the kinds of the arguments. -/
theorem needsArgument_of_kinds {args' : List Term} {i : Nat} (hc : rule.IsAbout c)
    (hkinds : (args.map fun arg => arg.shape.kind) = args'.map fun arg => arg.shape.kind)
    (h : rule.apply c args = .needsArgument i) : rule.apply c args' = .needsArgument i := by
  -- a first argument that is pending here is pending there, and every rule asks for it
  have hfirst {arg : Term} {rest : List Term} (hargs : args = arg :: rest)
      (hpending : arg.shape = .pending) (hfix : rule ≠ .fixpoint) :
      rule.apply c args' = .needsArgument 0 := by
    subst hargs
    obtain ⟨arg', rest', rfl, hkind, -⟩ := List.map_eq_cons_iff.1 hkinds.symm
    exact apply_of_pending hc hfix ((Shape.eq_pending_iff_of_kind hkind).2 hpending) rest'
  cases hc with
  | binary _ =>
    simp only [apply, applyBinary, withLiteral_congr hkinds] at h
    exact h
  | unary _ =>
    simp only [apply, applyUnary, withLiteral_congr hkinds] at h
    exact h
  | branch =>
    simp only [apply, applyBranch, withLiteral_congr hkinds] at h
    exact h
  | fix => cases args <;> contradiction
  | isTuple _ | select _ _ =>
    cases args with
    | nil => contradiction
    | cons arg rest =>
      obtain ⟨rfl, hpending⟩ := inspectTuple_eq_needsArgument h
      exact hfirst rfl hpending nofun
  | isConstructor _ | argOf _ =>
    cases args with
    | nil => contradiction
    | cons arg rest =>
      obtain ⟨rfl, hpending⟩ := inspectData_eq_needsArgument h
      exact hfirst rfl hpending nofun
  | isLiteral _ =>
    cases args with
    | nil => contradiction
    | cons arg rest =>
      obtain ⟨rfl, hpending⟩ := inspectLiteral_eq_needsArgument h
      exact hfirst rfl hpending nofun

/-- An operator asks for a second operand that is pending if a literal there makes a difference. -/
theorem applyBinary_of_pending {op : Operator} {left right : Term} {kind : Kind} {result : Literal}
    (hright : right.shape = .pending)
    (h : op.answer? [left.shape.kind, kind] = some result) :
    op.answer? [left.shape.kind, .pending] = some result
      ∨ applyBinary op [left, right] = .needsArgument 1 ∧ kind ≠ .pending := by
  simp only [applyBinary, withLiteral, List.getElem?_cons_zero, List.getElem?_cons_succ,
    Option.map_some, hright]
  cases hleft : left.shape with
  | literal value =>
    rw [hleft] at h
    simp only [Shape.kind, Operator.answer?] at h ⊢
    cases hshortcut : op.shortcut? value with
    | some decided =>
      rw [hshortcut] at h
      exact .inl h
    | none =>
      rw [hshortcut] at h
      refine .inr ⟨rfl, ?_⟩
      rintro rfl
      contradiction
  | tuple _ _ | data _ _ | function | pending =>
    rw [hleft] at h
    contradiction

/-- An answer that follows when pending arguments are evaluated follows before, unless an argument
is asked for that is evaluated then. -/
theorem answer?_or_needsArgument {kinds : List Kind} {answer : Answer} (hc : rule.IsAbout c)
    (hfix : rule ≠ .fixpoint) (hlength : args.length = rule.arity)
    (hkinds : List.Forall₂ Kind.Below (args.map fun arg => arg.shape.kind) kinds)
    (h : c.answer? kinds = some answer) :
    c.answer? (args.map fun arg => arg.shape.kind) = some answer
      ∨ ∃ (i : Nat) (kind : Kind), rule.apply c args = .needsArgument i
        ∧ kinds[i]? = some kind ∧ kind ≠ .pending := by
  cases args with
  | nil => cases hc <;> contradiction
  | cons first rest =>
    obtain ⟨kind, kinds, hfirst, hrest, rfl⟩ := List.forall₂_cons_left_iff.1 hkinds
    -- nothing follows from a pending first argument
    by_cases hpending : first.shape = .pending
    · refine .inr ⟨0, kind, apply_of_pending hc hfix hpending rest, rfl, ?_⟩
      rintro rfl
      rw [Constant.answer?_pending_cons] at h
      contradiction
    obtain rfl := hfirst.resolve_left (mt Shape.kind_eq_pending.1 hpending)
    -- the first argument is as it was, so only a second one makes a difference
    by_cases hbinary : rule = .binaryOperators
    · subst hbinary
      cases hc with
      | @binary op hop =>
        obtain ⟨second, rfl⟩ := List.length_eq_one_iff.1 (Nat.succ.inj hlength)
        obtain ⟨kind, kinds, hsecond, hnil, rfl⟩ := List.forall₂_cons_left_iff.1 hrest
        obtain rfl := List.forall₂_nil_left_iff.1 hnil
        by_cases hpending : second.shape = .pending
        · obtain ⟨result, hresult, rfl⟩ := Option.map_eq_some_iff.1 h
          rcases applyBinary_of_pending hpending hresult with hanswer | ⟨happly, hkind⟩
          · refine .inl (Option.map_eq_some_iff.2 ⟨result, ?_, rfl⟩)
            rw [List.map_cons, List.map_cons, hpending]
            exact hanswer
          · exact .inr ⟨1, kind, happly, rfl, hkind⟩
        · obtain rfl := hsecond.resolve_left (mt Shape.kind_eq_pending.1 hpending)
          exact .inl h
    · rw [hc.arity_eq_one hbinary] at hlength
      obtain rfl := List.eq_nil_of_length_eq_zero (Nat.succ.inj hlength)
      obtain rfl := List.forall₂_nil_left_iff.1 hrest
      exact .inl h

/-- A rule that reduces arguments reduces them also before they are evaluated so far, or it asks for
one that is evaluated only then. -/
theorem apply_of_below {args' : List Term} (hc : rule.IsAbout c) (hlength : args.length = rule.arity)
    (hargs : List.Forall₂ (fun arg arg' => Kind.Below arg.shape.kind arg'.shape.kind) args args')
    (h : rule.apply c args' = .reduced t) :
    (∃ t, rule.apply c args = .reduced t)
      ∨ ∃ (i : Nat) (arg' : Term), rule.apply c args = .needsArgument i
        ∧ args'[i]? = some arg' ∧ arg'.shape ≠ .pending := by
  by_cases hfix : rule = .fixpoint
  · -- the fixpoint answers as soon as there is an argument
    subst hfix
    obtain ⟨function, rfl⟩ := List.length_eq_one_iff.1 hlength
    exact .inl ⟨_, rfl⟩
  have hkinds : List.Forall₂ Kind.Below (args.map fun arg => arg.shape.kind)
      (args'.map fun arg => arg.shape.kind) := by
    rwa [List.forall₂_map_left_iff, List.forall₂_map_right_iff]
  obtain ⟨answer, hanswer, -⟩ :=
    (apply_eq_reduced_iff hc hfix (hargs.length_eq.symm.trans hlength)).1 h
  rcases answer?_or_needsArgument hc hfix hlength hkinds hanswer with
    hanswer | ⟨i, kind, hneeds, hkind, hevaluated⟩
  · exact .inl (exists_apply_eq_reduced hc hfix hlength hanswer)
  · rw [List.getElem?_map] at hkind
    obtain ⟨arg', harg', rfl⟩ := Option.map_eq_some_iff.1 hkind
    exact .inr ⟨i, arg', hneeds, harg', mt Shape.kind_eq_pending.2 hevaluated⟩

end DeltaRule

end Clausal
