import Clausal.Proofs.Delta.Answer
import Clausal.Proofs.Reduction.Step

/-!
# Evaluated terms

A literal, a tuple, data or a function is evaluated: there is no beta redex at its root, and no rule
applies to it. What is left are the beta steps of its arguments, of which the first that has one
steps. So an evaluated term steps as the list of its arguments does, whatever its head is, and stays
what it is along every run. What a strict rule answers to it stays right.

This holds also of a rule that packs the fields of data into a tuple. The tuple steps as the data
does, since both step as the list of the fields.

## Main results

* `Term.step?_of_shape`: an evaluated term steps in the first argument that has a beta step;
* `Term.Steps.kind_shape`, `Term.Steps.exists_args`: a run of an evaluated term leaves it evaluated
  as far as it was, and is one of its arguments;
* `DeltaRule.apply_leadsTo`: a strict rule keeps its answer while evaluated arguments step on;
* `Term.shape_stable`: an evaluated term keeps its shape, and the answers to it stay right.
-/

namespace Clausal

open Relation (ReflTransGen)

namespace Term

variable {rules : List DeltaRule} {t t' : Term} {args args' : List Term}

/-! ## Steps of arguments -/

/-- A number of beta steps, each of the first term that has one. -/
def BetaStepsFirst : List Term → List Term → Prop :=
  ReflTransGen fun args args' => betaStepFirst? args = some args'

theorem length_of_betaStepFirst? (h : betaStepFirst? args = some args') :
    args'.length = args.length := by
  obtain ⟨i, arg, arg', -, -, rfl⟩ := exists_of_betaStepFirst? h
  exact List.length_set

theorem forall₂_of_betaStepFirst? (h : betaStepFirst? args = some args') :
    List.Forall₂ (Steps rules) args args' := by
  obtain ⟨i, arg, arg', hget, hstep, rfl⟩ := exists_of_betaStepFirst? h
  obtain ⟨hi, rfl⟩ := List.getElem?_eq_some_iff.1 hget
  have hsteps : Steps rules args[i] arg' := .head (step?_of_betaStep? hstep) (.refl rules arg')
  have hself : List.Forall₂ (Steps rules) args args := List.forall₂_same.2 fun t _ => .refl rules t
  have hset := forall₂_set_set hself i hsteps
  rwa [List.set_getElem_self hi] at hset

namespace BetaStepsFirst

theorem forall₂ (h : BetaStepsFirst args args') : List.Forall₂ (Steps rules) args args' := by
  induction h with
  | refl => exact List.forall₂_same.2 fun t _ => .refl rules t
  | tail _ hstep ih =>
    exact forall₂_trans (fun _ _ _ => Steps.trans) ih (forall₂_of_betaStepFirst? hstep)

theorem length_eq (h : BetaStepsFirst args args') : args'.length = args.length := by
  induction h with
  | refl => rfl
  | tail _ hstep ih => exact (length_of_betaStepFirst? hstep).trans ih

end BetaStepsFirst

/-! ## Steps of evaluated terms -/

/-- The beta steps of an evaluated term are those of its arguments. -/
theorem betaStep?_of_shape (h : t.shape ≠ .pending) :
    t.betaStep? = (betaStepFirst? t.args).map t.head.applyAll := by
  have hwhole := t.applyAll_head_args
  cases hhead : t.head with
  | const c =>
    rw [hhead] at hwhole
    rw [← betaStep?_const_applyAll, hwhole]
  | abs param body =>
    rw [shape, hhead] at h
    have hargs : t.args = [] := by
      by_contra hne
      exact h (if_neg (mt List.isEmpty_iff.1 hne))
    rw [hhead, hargs, applyAll_nil] at hwhole
    rw [hargs, ← hwhole]
    rfl
  | var _ =>
    rw [shape, hhead] at h
    exact absurd rfl h
  | app func arg => exact absurd hhead (t.head_ne_app func arg)

/-- An evaluated term has no steps but the beta steps of its arguments. -/
theorem step?_of_shape (h : t.shape ≠ .pending) :
    t.step? rules = (betaStepFirst? t.args).map t.head.applyAll := by
  rw [← betaStep?_of_shape h]
  cases hbeta : t.betaStep? with
  | some t' => exact step?_of_betaStep? hbeta
  | none => exact step?_eq_none_of_shape hbeta h

/-- A step leaves an evaluated term evaluated as far as it was. -/
theorem kind_shape_of_step (hshape : t.shape ≠ .pending) (hstep : t.step? rules = some t') :
    t'.shape.kind = t.shape.kind := by
  rw [step?_of_shape hshape] at hstep
  obtain ⟨args, hargs, rfl⟩ := Option.map_eq_some_iff.1 hstep
  refine kind_shape_eq (t.head_head_applyAll args) ?_
  rw [args_head_applyAll, length_of_betaStepFirst? hargs]

/-- So does a run. -/
theorem Steps.kind_shape (hshape : t.shape ≠ .pending) (h : Steps rules t t') :
    t'.shape.kind = t.shape.kind := by
  induction h with
  | refl => rfl
  | tail _ hstep ih =>
    have hevaluated := mt (Shape.eq_pending_iff_of_kind ih).1 hshape
    exact (kind_shape_of_step hevaluated hstep).trans ih

theorem Steps.shape_ne_pending (hshape : t.shape ≠ .pending) (h : Steps rules t t') :
    t'.shape ≠ .pending :=
  mt (Shape.eq_pending_iff_of_kind (h.kind_shape hshape)).1 hshape

/-- A run of an evaluated term keeps the head and is a run of the arguments. -/
theorem Steps.exists_args (hshape : t.shape ≠ .pending) (h : Steps rules t t') :
    ∃ args, BetaStepsFirst t.args args ∧ t' = t.head.applyAll args := by
  induction h with
  | refl => exact ⟨t.args, .refl, t.applyAll_head_args.symm⟩
  | tail hsteps hstep ih =>
    -- the term is still evaluated, so that it steps in its arguments again
    rw [step?_of_shape (Steps.shape_ne_pending hshape hsteps)] at hstep
    obtain ⟨args, hargs, rfl⟩ := ih
    rw [head_head_applyAll, args_head_applyAll] at hstep
    obtain ⟨args', hargs', rfl⟩ := Option.map_eq_some_iff.1 hstep
    exact ⟨args', hargs.tail hargs', rfl⟩

theorem Steps.betaSteps_args (hshape : t.shape ≠ .pending) (h : Steps rules t t') :
    BetaStepsFirst t.args t'.args := by
  obtain ⟨args, hargs, rfl⟩ := h.exists_args hshape
  rwa [args_head_applyAll]

end Term

/-! ## Shapes -/

/-- Two shapes are the same literal, tuples of the same size, data of the same constructor with the
same number of fields, or functions. -/
def Shape.Same : Shape → Shape → Prop
  | .literal value, .literal value' => value = value'
  | .tuple size _, .tuple size' _ => size = size'
  | .data name fields, .data name' fields' => name = name' ∧ fields.length = fields'.length
  | .function, .function => True
  | _, _ => False

/-- Evaluated terms of one kind with as many arguments have the same shape. -/
theorem Term.same_shape {t u : Term} (hshape : t.shape ≠ .pending)
    (hkind : t.shape.kind = u.shape.kind) (hlength : t.args.length = u.args.length) :
    t.shape.Same u.shape := by
  cases ht : t.shape <;> cases hu : u.shape <;> rw [ht, hu] at hkind
  all_goals try contradiction
  · exact Kind.literal.inj hkind
  · exact Kind.tuple.inj hkind
  · rw [args_of_shape_eq_data ht, args_of_shape_eq_data hu] at hlength
    exact ⟨Kind.data.inj hkind, hlength⟩
  · trivial

/-! ## Answers -/

open Term (BetaStepsFirst Steps)

variable {rules : List DeltaRule} {rule : DeltaRule} {c : Constant} {t t' : Term}
  {args args' parts parts' : List Term}

/-- An answer is the same as another, except that its result may have to take steps to the result
of the other. -/
inductive Outcome.LeadsTo (rules : List DeltaRule) : Outcome → Outcome → Prop
  | reduced {t t' : Term} (h : Steps rules t t') : LeadsTo rules (reduced t) (reduced t')
  | declined : LeadsTo rules declined declined
  | needsArgument (index : Nat) : LeadsTo rules (needsArgument index) (needsArgument index)

/-- Fields are packed into a tuple unless there is just one. -/
theorem fieldsTerm_of_length_ne_one (h : parts.length ≠ 1) :
    fieldsTerm parts = (Term.primitive (.tuple parts.length)).applyAll parts := by
  rw [fieldsTerm.eq_def]
  split
  · exact absurd rfl h
  · rfl

/-- Packed fields step in the first of them that has a beta step. -/
theorem betaStep?_fieldsTerm (h : Term.betaStepFirst? parts = some parts') :
    (fieldsTerm parts).betaStep? = some (fieldsTerm parts') := by
  have hlength := Term.length_of_betaStepFirst? h
  by_cases hone : parts.length = 1
  · obtain ⟨field, rfl⟩ := List.length_eq_one_iff.1 hone
    obtain ⟨field', rfl⟩ := List.length_eq_one_iff.1 (hlength.trans hone)
    rw [Term.betaStepFirst?, Term.betaStepFirst?] at h
    rw [fieldsTerm, fieldsTerm]
    cases hbeta : field.betaStep? <;> rw [hbeta] at h
    · contradiction
    · rw [(List.cons.inj (Option.some.inj h)).1]
  · rw [fieldsTerm_of_length_ne_one hone, fieldsTerm_of_length_ne_one (hlength.trans_ne hone),
      hlength, Term.primitive, Term.betaStep?_const_applyAll, h]
    rfl

theorem Term.BetaStepsFirst.fieldsTerm (h : BetaStepsFirst parts parts') :
    Steps rules (fieldsTerm parts) (fieldsTerm parts') :=
  ReflTransGen.lift Clausal.fieldsTerm
    (fun _ _ hstep => Term.step?_of_betaStep? (betaStep?_fieldsTerm hstep)) _ _ h

/-- The result of an answer steps as the parts do that it is made of. -/
theorem Answer.exists_term?_of_steps {answer : Answer} (h : BetaStepsFirst parts parts')
    (hterm : answer.term? parts = some t) :
    ∃ t', answer.term? parts' = some t' ∧ Steps rules t t' := by
  cases answer with
  | literal _ | choice _ => exact ⟨t, hterm, .refl rules t⟩
  | component index =>
    have hpart := getElem?_rel h.forall₂ (R := Steps rules) index
    rw [term?] at hterm ⊢
    rw [hterm] at hpart
    generalize parts'[index]? = part' at hpart
    cases hpart with
    | some hsteps => exact ⟨_, rfl, hsteps⟩
  | fields =>
    obtain rfl := Option.some.inj hterm
    exact ⟨_, rfl, h.fieldsTerm⟩

namespace DeltaRule

/-- A rule but the fixpoint keeps its answer if its arguments stay of their kinds while those of the
first of them have beta steps. -/
theorem apply_leadsTo (hc : rule.IsAbout c) (hfix : rule ≠ .fixpoint)
    (hlength : args.length = rule.arity)
    (hkinds : (args.map fun arg => arg.shape.kind) = args'.map fun arg => arg.shape.kind)
    (hparts : BetaStepsFirst (args.head?.elim [] Term.args) (args'.head?.elim [] Term.args)) :
    (rule.apply c args).LeadsTo rules (rule.apply c args') := by
  have hlength' : args'.length = rule.arity := by
    rw [← hlength, ← args.length_map (fun arg => arg.shape.kind), hkinds, List.length_map]
  cases happly : rule.apply c args with
  | reduced t =>
    obtain ⟨answer, hanswer, hterm⟩ := (apply_eq_reduced_iff hc hfix hlength).1 happly
    obtain ⟨t', hterm', hsteps⟩ := Answer.exists_term?_of_steps hparts hterm
    rw [hkinds] at hanswer
    rw [(apply_eq_reduced_iff hc hfix hlength').2 ⟨answer, hanswer, hterm'⟩]
    exact .reduced hsteps
  | needsArgument i =>
    rw [needsArgument_of_kinds hc hkinds happly]
    exact .needsArgument i
  | declined =>
    cases happly' : rule.apply c args' with
    | declined => exact .declined
    | reduced t' =>
      -- then there was an answer before
      obtain ⟨answer, hanswer, -⟩ := (apply_eq_reduced_iff hc hfix hlength').1 happly'
      obtain ⟨t, ht⟩ := exists_apply_eq_reduced hc hfix hlength (hkinds ▸ hanswer)
      rw [happly] at ht
      contradiction
    | needsArgument i =>
      have hneeds := needsArgument_of_kinds hc hkinds.symm happly'
      rw [happly] at hneeds
      contradiction

/-- So it keeps its answer while an evaluated argument steps on. -/
theorem apply_set_leadsTo {i : Nat} (hc : rule.IsAbout c) (hfix : rule ≠ .fixpoint)
    (hlength : args.length = rule.arity) (harg : args[i]? = some t) (hshape : t.shape ≠ .pending)
    (h : Steps rules t t') :
    (rule.apply c args).LeadsTo rules (rule.apply c (args.set i t')) := by
  refine apply_leadsTo hc hfix hlength ?_ ?_
  · obtain ⟨hi, rfl⟩ := List.getElem?_eq_some_iff.1 harg
    rw [List.map_set, h.kind_shape hshape, ← List.map_set, List.set_getElem_self]
  · cases args with
    | nil => contradiction
    | cons arg rest =>
      cases i with
      | zero =>
        obtain rfl := Option.some.inj harg
        exact h.betaSteps_args hshape
      | succ i => exact .refl

end DeltaRule

/-! ## Stability -/

namespace Term

/-- Evaluated terms are stable. What a run of steps reaches from one has the same shape, and each
step on the way is a beta step inside one argument of the spine. So what a rule answers to the
arguments that it consumes stays right when the evaluated one among them is replaced by what it
reaches: the answer is the same, and a result that is made of parts of that argument steps to the
one made of its parts later. The fixpoint is the one rule that does not look at its argument. -/
theorem shape_stable {t t' : Term} (hshape : t.shape ≠ .pending)
    (h : Steps DeltaRule.standard t t') :
    t.shape.Same t'.shape
      ∧ (∀ u, t'.step? DeltaRule.standard = some u →
        ∃ (i : Nat) (arg arg' : Term), t'.args[i]? = some arg ∧ arg.betaStep? = some arg'
          ∧ u = t'.head.applyAll (t'.args.set i arg'))
      ∧ ∀ (rule : DeltaRule) (c : Constant) (args : List Term) (i : Nat), rule ≠ .fixpoint →
        rule.accepts c = true → args.length = rule.arity → args[i]? = some t →
        (rule.apply c args).LeadsTo DeltaRule.standard (rule.apply c (args.set i t')) := by
  have hlength : t'.args.length = t.args.length := (h.betaSteps_args hshape).length_eq
  refine ⟨same_shape hshape (h.kind_shape hshape).symm hlength.symm, ?_, ?_⟩
  · intro u hstep
    rw [step?_of_shape (h.shape_ne_pending hshape)] at hstep
    obtain ⟨args, hargs, rfl⟩ := Option.map_eq_some_iff.1 hstep
    obtain ⟨i, arg, arg', hget, hbeta, rfl⟩ := exists_of_betaStepFirst? hargs
    exact ⟨i, arg, arg', hget, hbeta, rfl⟩
  · intro rule c args i hfix haccepts hlength harg
    exact DeltaRule.apply_set_leadsTo (DeltaRule.accepts_iff_isAbout.1 haccepts) hfix hlength harg
      hshape h

/-- A pair of two calls steps in the first of them and then in the second. Its projection to the
fields returns them as they are: what it returns first steps to what it returns later. -/
theorem shape_stable_pair :
    let call (value : Int64) := Term.app (.abs "x" (.var "x")) (.literal (.int value))
    let pair (first second : Term) := (Term.const (.constructor "Pair")).applyAll [first, second]
    let t := pair (call 1) (call 2)
    let t' := pair (.literal (.int 1)) (call 2)
    let u := pair (.literal (.int 1)) (.literal (.int 2))
    let projection := Constant.primitive (.argOf "Pair")
    t.shape ≠ .pending ∧ Steps DeltaRule.standard t t' ∧ t.shape.Same t'.shape
      ∧ (t'.step? DeltaRule.standard = some u
        ∧ ∃ (i : Nat) (arg arg' : Term), t'.args[i]? = some arg ∧ arg.betaStep? = some arg'
          ∧ u = t'.head.applyAll (t'.args.set i arg'))
      ∧ (DeltaRule.constructorIntrospection.apply projection [t]).LeadsTo DeltaRule.standard
        (DeltaRule.constructorIntrospection.apply projection [t']) := by
  intro call pair t t' u projection
  have hshape : t.shape ≠ .pending := Shape.noConfusion
  have hsteps : Steps DeltaRule.standard t t' := .head (by cbv) (.refl _ _)
  have hnext : t'.step? DeltaRule.standard = some u := by cbv
  obtain ⟨hsame, hinside, hanswers⟩ := shape_stable hshape hsteps
  exact ⟨hshape, hsteps, hsame, ⟨hnext, hinside u hnext⟩,
    hanswers .constructorIntrospection projection [t] 0 (by decide) rfl rfl rfl⟩

end Term

end Clausal
