import Clausal.Proofs.Delta.Rule
import Clausal.Proofs.Lists
import Clausal.Proofs.Term.FreeVariables
import Clausal.Reduction.Step

/-!
# What a step does

The ways in which a term steps, and what is known of a term that has no step. A term without a
beta redex steps only at the constant at its head: a delta rule reduces it, or an argument that
the rule asks for steps in its place.

## Main results

* `Term.step?_cases`: a step is a beta step, an answer of a rule or a step of an argument;
* `Term.betaStep?_applyAll`: a spine steps in its head and then in its first argument that has a
  beta step;
* `Term.step?_eq_none_cases`: without a step, every rule declines or asks for an argument without
  a step;
* `Term.Steps`: any number of steps, which lead to one term without a step at most.
-/

namespace Clausal

namespace Term

variable {rules : List DeltaRule} {t t' : Term}

/-- The ways in which a term steps. -/
theorem step?_cases (h : t.step? rules = some t') :
    t.betaStep? = some t' ∨ ∃ c, t.head = .const c ∧ ∃ rule ∈ rules,
      rule.respond c t.args = .reduced t'
        ∨ ∃ (i : Nat) (arg arg' : Term), rule.respond c t.args = .needsArgument i
          ∧ t.args[i]? = some arg ∧ arg.step? rules = some arg'
          ∧ t' = (Term.const c).applyAll (t.args.set i arg') := by
  rw [step?.eq_def] at h
  -- a beta step goes before any delta rule
  cases hbeta : t.betaStep? with
  | some redex =>
    rw [hbeta] at h
    exact .inl h
  | none =>
    rw [hbeta] at h
    cases hhead : t.head with
    | const c =>
      rw [hhead] at h
      obtain ⟨rule, hrule, hanswer⟩ := List.exists_of_findSome?_eq_some h
      refine .inr ⟨c, rfl, rule, hrule, ?_⟩
      cases hrespond : rule.respond c t.args with
      | reduced result =>
        rw [hrespond] at hanswer
        exact .inl (congrArg Outcome.reduced (Option.some.inj hanswer))
      | declined =>
        rw [hrespond] at hanswer
        contradiction
      | needsArgument i =>
        rw [hrespond] at hanswer
        dsimp only at hanswer
        split at hanswer
        · next arg harg =>
          obtain ⟨arg', hstep, rfl⟩ := Option.map_eq_some_iff.1 hanswer
          exact .inr ⟨i, arg, arg', rfl, harg, hstep, rfl⟩
        · contradiction
    | var _ | abs _ _ | app _ _ =>
      rw [hhead] at h
      contradiction

/-- What is known of a term that has no step: it has no beta redex outside of abstractions, and
every rule declines it or asks for an argument that has no step either. -/
theorem step?_eq_none_cases (h : t.step? rules = none) :
    t.betaStep? = none ∧ ∀ c, t.head = .const c → ∀ rule ∈ rules,
      rule.respond c t.args = .declined
        ∨ ∃ i : Nat, rule.respond c t.args = .needsArgument i
          ∧ ∀ arg, t.args[i]? = some arg → arg.step? rules = none := by
  rw [step?.eq_def] at h
  cases hbeta : t.betaStep? with
  | some redex =>
    rw [hbeta] at h
    contradiction
  | none =>
    rw [hbeta] at h
    refine ⟨rfl, fun c hhead rule hrule => ?_⟩
    rw [hhead] at h
    -- every rule was asked, and none of them led to a step
    have hanswer := List.findSome?_eq_none_iff.1 h rule hrule
    cases hrespond : rule.respond c t.args with
    | reduced result =>
      rw [hrespond] at hanswer
      contradiction
    | declined => exact .inl rfl
    | needsArgument i =>
      rw [hrespond] at hanswer
      refine .inr ⟨i, rfl, fun arg harg => ?_⟩
      dsimp only at hanswer
      split at hanswer
      · next arg' harg' =>
        rw [harg] at harg'
        rw [Option.some.inj harg']
        exact Option.map_eq_none_iff.1 hanswer
      · next hmissing =>
        rw [harg] at hmissing
        contradiction

/-- A term without a beta step has no step if every rule declines it. -/
theorem step?_eq_none_of_declined (hbeta : t.betaStep? = none)
    (h : ∀ c, t.head = .const c → ∀ rule ∈ rules, rule.respond c t.args = .declined) :
    t.step? rules = none := by
  rw [step?.eq_def, hbeta]
  cases hhead : t.head with
  | const c =>
    refine List.findSome?_eq_none_iff.2 fun rule hrule => ?_
    rw [h c hhead rule hrule]
  | var _ | abs _ _ | app _ _ => rfl

/-- An evaluated term has no step but a beta step. -/
theorem step?_eq_none_of_shape (hbeta : t.betaStep? = none) (hshape : t.shape ≠ .pending) :
    t.step? rules = none := by
  refine step?_eq_none_of_declined hbeta fun c hhead rule _ => ?_
  rcases rule.respond_cases c t.args with ⟨hdeclined, -⟩ | ⟨happlicable, -⟩
  · exact hdeclined
  · rw [shape, hhead] at hshape
    exact absurd happlicable.shape_eq_pending hshape

/-- A beta step goes before any delta rule. -/
theorem step?_of_betaStep? (h : t.betaStep? = some t') : t.step? rules = some t' := by
  rw [step?.eq_def, h]

/-- A step is the beta step, if there is one, and else one of a term that is not evaluated. -/
theorem betaStep?_or_pending (h : t.step? rules = some t') :
    t.betaStep? = some t' ∨ t.betaStep? = none ∧ t.shape = .pending := by
  cases hbeta : t.betaStep? with
  | some t'' =>
    rw [step?_of_betaStep? hbeta] at h
    exact .inl h
  | none =>
    refine .inr ⟨rfl, ?_⟩
    by_contra hshape
    rw [step?_eq_none_of_shape hbeta hshape] at h
    contradiction

/-- Without beta steps, the rules decide on the constant at the head, and the first that does not
decline does. -/
theorem step?_eq_findSome? {k : Constant} (hbeta : t.betaStep? = none) (hhead : t.head = .const k) :
    t.step? rules = rules.findSome? fun rule => match rule.respond k t.args with
      | .reduced result => some result
      | .declined => none
      | .needsArgument i => t.args[i]?.bind fun arg =>
        (arg.step? rules).map fun arg' => (Term.const k).applyAll (t.args.set i arg') := by
  rw [step?.eq_def, hbeta, hhead]
  refine congrArg (rules.findSome? ·) (funext fun rule => ?_)
  cases rule.respond k t.args with
  | reduced _ | declined => rfl
  | needsArgument i =>
    dsimp only
    split
    · next hget => rw [hget, Option.bind_some]
    · next hget => rw [hget, Option.bind_none]

/-- Without beta steps, the only rule that is about the constant at the head decides. -/
theorem step?_eq_of_rule {rule : DeltaRule} {k : Constant} (hbeta : t.betaStep? = none)
    (hhead : t.head = .const k) (hrule : rule ∈ rules)
    (hother : ∀ rule' ∈ rules, rule' ≠ rule → rule'.respond k t.args = .declined) :
    t.step? rules = match rule.respond k t.args with
      | .reduced result => some result
      | .declined => none
      | .needsArgument i => t.args[i]?.bind fun arg =>
        (arg.step? rules).map fun arg' => (Term.const k).applyAll (t.args.set i arg') := by
  rw [step?_eq_findSome? hbeta hhead]
  exact findSome?_eq_of_forall_ne hrule fun rule' hrule' hne => by rw [hother rule' hrule' hne]

/-- Without a beta redex at the root, the function steps before the argument. -/
theorem betaStep?_app {func : Term} (h : ¬∃ param body, func = .abs param body) (arg : Term) :
    (Term.app func arg).betaStep?
      = ((func.betaStep?.map fun func' => .app func' arg) <|> arg.betaStep?.map (.app func)) := by
  rw [betaStep?]
  · cases func.betaStep? <;> rfl
  · exact fun param body heq => h ⟨param, body, heq⟩

/-! ## Beta steps of spines -/

/-- The terms of a list after a beta step of the first that has one. -/
def betaStepFirst? : List Term → Option (List Term)
  | [] => none
  | arg :: args =>
    (arg.betaStep?.map fun arg' => arg' :: args) <|> (betaStepFirst? args).map (arg :: ·)

/-- One term of the list steps, the others stay. -/
theorem exists_of_betaStepFirst? {args args' : List Term}
    (h : betaStepFirst? args = some args') :
    ∃ (i : Nat) (arg arg' : Term), args[i]? = some arg ∧ arg.betaStep? = some arg'
      ∧ args' = args.set i arg' := by
  induction args generalizing args' with
  | nil => contradiction
  | cons arg args ih =>
    rw [betaStepFirst?] at h
    cases hbeta : arg.betaStep? with
    | some arg' =>
      rw [hbeta] at h
      exact ⟨0, arg, arg', rfl, hbeta, (Option.some.inj h).symm⟩
    | none =>
      rw [hbeta] at h
      obtain ⟨args₁, hargs, rfl⟩ := Option.map_eq_some_iff.1 h
      obtain ⟨i, other, other', hget, hstep, rfl⟩ := ih hargs
      exact ⟨i + 1, other, other', hget, hstep, rfl⟩

theorem betaStepFirst?_eq_none_iff {args : List Term} :
    betaStepFirst? args = none ↔ ∀ arg ∈ args, arg.betaStep? = none := by
  induction args with
  | nil => simp [betaStepFirst?]
  | cons arg args ih =>
    rw [betaStepFirst?, List.forall_mem_cons, ← ih]
    cases arg.betaStep? <;> simp

/-- A spine that no abstraction heads steps in its head, and if that has no beta step in the first
argument that has one. -/
theorem betaStep?_applyAll {func : Term} (h : ¬∃ param body, func = .abs param body)
    (args : List Term) : (func.applyAll args).betaStep?
      = ((func.betaStep?.map fun func' => func'.applyAll args) <|>
        (betaStepFirst? args).map func.applyAll) := by
  induction args generalizing func with
  | nil =>
    rw [applyAll_nil, betaStepFirst?]
    cases func.betaStep? <;> rfl
  | cons arg args ih =>
    rw [applyAll_cons, ih (by simp), betaStep?_app h, betaStepFirst?]
    cases func.betaStep? with
    | some func' => rfl
    | none =>
      cases arg.betaStep? with
      | some arg' => rfl
      | none => cases betaStepFirst? args <;> rfl

theorem betaStep?_const_applyAll (c : Constant) (args : List Term) :
    ((Term.const c).applyAll args).betaStep?
      = (betaStepFirst? args).map (Term.const c).applyAll := by
  rw [betaStep?_applyAll (by simp)]
  rfl

/-- The arguments of a term without a beta step have none either. -/
theorem betaStep?_eq_none_of_mem_args (h : t.betaStep? = none) {arg : Term} (harg : arg ∈ t.args) :
    arg.betaStep? = none := by
  fun_induction betaStep? t with
  | case1 => contradiction
  | case2 => contradiction
  | case3 func last _ hfunc ih₁ ih₂ =>
    rcases List.mem_append.1 harg with harg | harg
    · exact ih₁ hfunc harg
    · rw [List.mem_singleton.1 harg]
      exact Option.map_eq_none_iff.1 h
  | case4 t _ hleaf =>
    cases t with
    | app func arg => exact absurd rfl (hleaf func arg)
    | var _ | const _ | abs _ _ => contradiction

/-- An abstraction at the head of a term without a beta step is the whole term. -/
theorem args_eq_nil_of_betaStep? {param : String} {body : Term} (h : t.betaStep? = none)
    (hhead : t.head = .abs param body) : t.args = [] := by
  fun_induction betaStep? t with
  | case1 => contradiction
  | case2 => contradiction
  | case3 func arg hnot hfunc ih =>
    have hargs := ih hfunc hhead
    have hwhole := func.applyAll_head_args
    rw [hargs, applyAll_nil] at hwhole
    exact absurd (hwhole.symm.trans hhead) (hnot param body)
  | case4 t _ hleaf =>
    cases t with
    | app func arg => exact absurd rfl (hleaf func arg)
    | var _ | const _ | abs _ _ => rfl

/-- A spine has no beta step if it is not headed by an abstraction and its arguments have none. -/
theorem betaStep?_applyAll_eq_none {func : Term} {args : List Term} (hfunc : func.betaStep? = none)
    (habs : ¬∃ param body, func = .abs param body) (hargs : ∀ arg ∈ args, arg.betaStep? = none) :
    (func.applyAll args).betaStep? = none := by
  rw [betaStep?_applyAll habs, hfunc, betaStepFirst?_eq_none_iff.2 hargs]
  rfl

/-- A term without a beta step has none with other arguments that have none. -/
theorem betaStep?_head_applyAll {args : List Term} (h : t.betaStep? = none)
    (hlength : args.length = t.args.length) (hargs : ∀ arg ∈ args, arg.betaStep? = none) :
    (t.head.applyAll args).betaStep? = none := by
  cases hhead : t.head with
  | abs param body =>
    rw [args_eq_nil_of_betaStep? h hhead] at hlength
    rw [List.eq_nil_of_length_eq_zero hlength]
    rfl
  | var _ | const _ => exact betaStep?_applyAll_eq_none rfl (by simp) hargs
  | app func arg => exact absurd hhead (t.head_ne_app func arg)

/-! ## Runs -/

/-- A number of steps with some delta rules. -/
def Steps (rules : List DeltaRule) : Term → Term → Prop :=
  Relation.ReflTransGen fun t t' => t.step? rules = some t'

namespace Steps

theorem refl (rules : List DeltaRule) (t : Term) : Steps rules t t :=
  Relation.ReflTransGen.refl

/-- A step before a number of steps. -/
theorem head {t'' : Term} (hstep : t.step? rules = some t') (hsteps : Steps rules t' t'') :
    Steps rules t t'' :=
  Relation.ReflTransGen.head hstep hsteps

theorem trans {t'' : Term} (h : Steps rules t t') (h' : Steps rules t' t'') : Steps rules t t'' :=
  Relation.ReflTransGen.trans h h'

/-- There is one step at most, so a run goes through every term that is reached on the way to a term
without a step. -/
theorem of_steps {u : Term} (hu : u.step? rules = none) (h : Steps rules t u)
    (h' : Steps rules t t') : Steps rules t' u := by
  induction h' using Relation.ReflTransGen.head_induction_on with
  | refl => exact h
  | head hstep _ ih =>
    refine ih ?_
    rcases h.cases_head with rfl | ⟨next, hnext, hrest⟩
    · rw [hu] at hstep
      contradiction
    · rw [hnext] at hstep
      exact Option.some.inj hstep ▸ hrest

end Steps

end Term

end Clausal
