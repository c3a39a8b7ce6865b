import Clausal.Proofs.Reduction.Conversion

/-!
# The branch that is not taken

A conditional whose condition and chosen branch are evaluated to literals. Beta redexes go before
the delta rules, also those in the branch that is not taken: its beta steps are all made before the
condition is looked at. So the branch may be anything that beta steps alone do not run forever on,
and a fixpoint, which a delta rule unfolds, does no harm there.

## Main results

* `Term.steps_truth_conditional`: once the branches have no beta steps the condition steps alone;
* `Term.betaHalts_of_steps_conditional`: a conditional is never left if the beta steps of a branch
  do not end;
* `Term.steps_conditional_iff`: the conditional is evaluated to what its chosen branch is evaluated
  to just if the beta steps of the other branch end.
-/

namespace Clausal

open Relation (ReflTransGen)

namespace Term

variable {rules : List DeltaRule} {t t' u c c' a a' b b' : Term}

/-! ## Beta steps alone -/

/-- A number of beta steps. -/
def BetaSteps : Term → Term → Prop :=
  ReflTransGen fun t t' => t.betaStep? = some t'

/-- Whether beta steps alone come to an end. -/
def BetaHalts (t : Term) : Prop := ∃ t', BetaSteps t t' ∧ t'.betaStep? = none

theorem BetaSteps.steps (h : BetaSteps t t') : Steps rules t t' :=
  h.lift id fun _ _ => step?_of_betaStep?

theorem BetaSteps.lift {f : Term → Term} (h : BetaSteps t t')
    (hf : ∀ t t' : Term, t.betaStep? = some t' → (f t).betaStep? = some (f t')) :
    BetaSteps (f t) (f t') :=
  ReflTransGen.lift f hf _ _ h

theorem BetaHalts.of_betaStep? (h : t.betaStep? = some t') : BetaHalts t' → BetaHalts t
  | ⟨u, hsteps, hnormal⟩ => ⟨u, .head h hsteps, hnormal⟩

/-- Beta steps go first, so they end in a run that ends. -/
theorem betaHalts_of_steps (hu : u.step? rules = none) (h : Steps rules t u) : BetaHalts t := by
  induction h using ReflTransGen.head_induction_on with
  | refl => exact ⟨u, .refl, (step?_eq_none_cases hu).1⟩
  | @head t t' hstep _ ih =>
    cases hbeta : t.betaStep? with
    | none => exact ⟨t, .refl, hbeta⟩
    | some t'' =>
      rw [step?_of_betaStep? hbeta] at hstep
      exact .of_betaStep? hbeta (Option.some.inj hstep ▸ ih)

theorem step?_literal (rules : List DeltaRule) (value : Literal) :
    (literal value).step? rules = none :=
  step?_eq_none_of_shape rfl (Shape.noConfusion)

/-! ## Steps of a conditional -/

/-- The conditional with its condition and its two branches. -/
def conditional (c a b : Term) : Term := (Term.primitive .branch).applyAll [c, a, b]

/-- The function that a condition selects the branch with. -/
def selector (value : Bool) : Term := if value then firstOfTwo else secondOfTwo

/-- Beta steps of a conditional are those of its parts, from the left to the right. -/
theorem betaStep?_conditional (c a b : Term) : (conditional c a b).betaStep?
    = ((c.betaStep?.map fun c' => conditional c' a b) <|>
      (a.betaStep?.map fun a' => conditional c a' b) <|>
      b.betaStep?.map fun b' => conditional c a b') := by
  simp only [conditional, applyAll_cons, applyAll_nil, primitive, betaStep?]
  cases c.betaStep? <;> cases a.betaStep? <;> rfl

/-- The rule for the conditional looks at the condition alone. -/
theorem respond_conditional (hc : c.isClosed = true) (a b : Term) :
    DeltaRule.branch.respond (.primitive .branch) [c, a, b]
      = match c.shape with
        | .literal (.bool value) => .reduced ((selector value).applyAll [a, b])
        | .pending => .needsArgument 0
        | _ => .declined := by
  have happly : DeltaRule.branch.apply (.primitive .branch) ([c, a, b].take DeltaRule.branch.arity)
      = DeltaRule.applyBranch [c] := rfl
  rw [DeltaRule.respond, if_pos, happly, DeltaRule.applyBranch, withLiteral,
    List.getElem?_cons_zero, Option.map_some]
  · rcases c.shape with (_ | _ | _ | _ | _) | _ | _ | _ | _ <;> rfl
  · simp [DeltaRule.accepts, DeltaRule.arity, hc]

/-- Without beta steps, a conditional steps as its condition has it. -/
theorem step?_conditional_of_beta (hbeta : (conditional c a b).betaStep? = none)
    (hc : c.isClosed = true) : (conditional c a b).step? DeltaRule.standard
      = match c.shape with
        | .literal (.bool value) => some ((selector value).applyAll [a, b])
        | .pending => (c.step? DeltaRule.standard).map (conditional · a b)
        | _ => none := by
  have hother (rule : DeltaRule) (hrule : rule ≠ .branch) :
      rule.respond (.primitive .branch) [c, a, b] = .declined := by
    cases rule <;> first | rfl | contradiction
  have hbranch : DeltaRule.branch ∈ DeltaRule.standard := by decide
  have hargs : (conditional c a b).args = [c, a, b] := rfl
  rw [step?_eq_of_rule hbeta rfl hbranch fun rule _ => hother rule, hargs, respond_conditional hc]
  cases c.shape with
  | literal value => cases value <;> rfl
  | _ => rfl

/-- Whatever the condition steps to, the conditional follows once its branches have no beta
steps. -/
theorem step?_conditional_condition (hc : c.isClosed = true) (ha : a.betaStep? = none)
    (hb : b.betaStep? = none) (hstep : c.step? DeltaRule.standard = some c') :
    (conditional c a b).step? DeltaRule.standard = some (conditional c' a b) := by
  rcases betaStep?_or_pending hstep with hbeta | ⟨hbeta, hshape⟩
  · refine step?_of_betaStep? ?_
    rw [betaStep?_conditional, hbeta]
    rfl
  · have hnormal : (conditional c a b).betaStep? = none := by
      rw [betaStep?_conditional, hbeta, ha, hb]
      rfl
    rw [step?_conditional_of_beta hnormal hc, hshape]
    simp only [hstep, Option.map_some]

/-- A truth value selects a branch. -/
theorem step?_conditional_truth (value : Bool) (ha : a.betaStep? = none)
    (hb : b.betaStep? = none) :
    (conditional (truth value) a b).step? DeltaRule.standard
      = some ((selector value).applyAll [a, b]) := by
  have hnormal : (conditional (truth value) a b).betaStep? = none := by
    rw [betaStep?_conditional, ha, hb]
    rfl
  rw [step?_conditional_of_beta hnormal rfl]
  rfl

/-- The function that selects a branch drops the other one. -/
theorem steps_selector (value : Bool) (ha : a.isClosed = true) (hb : b.isClosed = true) :
    Steps rules ((selector value).applyAll [a, b]) (if value then a else b) := by
  have hfree {t : Term} (ht : t.isClosed = true) : t.free = [] := List.isEmpty_iff.1 ht
  cases value with
  | true =>
    have hfirst : (Term.abs "y" (.var "x")).subst "x" a = .abs "y" a := by
      simp [subst, substWith, hfree ha]
    have hsecond : a.subst "y" b = a := subst_of_not_mem (hfree hb) (isClosed_iff.1 ha "y")
    have hleft : ((selector true).applyAll [a, b]).betaStep? = some (.app (.abs "y" a) b) :=
      congrArg (fun func => some (Term.app func b)) hfirst
    have hright : (Term.app (.abs "y" a) b).betaStep? = some a := congrArg some hsecond
    exact .head (step?_of_betaStep? hleft) (.head (step?_of_betaStep? hright) (.refl _ _))
  | false =>
    have hfirst : (Term.abs "y" (.var "y")).subst "x" a = .abs "y" (.var "y") :=
      subst_of_not_mem (hfree ha) (by simp [free])
    have hsecond : (Term.var "y").subst "y" b = b := by simp [subst, substWith]
    have hleft : ((selector false).applyAll [a, b]).betaStep?
        = some (.app (.abs "y" (.var "y")) b) :=
      congrArg (fun func => some (Term.app func b)) hfirst
    have hright : (Term.app (.abs "y" (.var "y")) b).betaStep? = some b := congrArg some hsecond
    exact .head (step?_of_betaStep? hleft) (.head (step?_of_betaStep? hright) (.refl _ _))

/-! ## Runs of a conditional -/

/-- Once the branches have no beta steps, the condition is evaluated and selects. -/
theorem steps_truth_conditional {value : Bool} (hc : c.isClosed = true) (ha : a.betaStep? = none)
    (hb : b.betaStep? = none) (hcond : Steps DeltaRule.standard c (truth value)) :
    Steps DeltaRule.standard (conditional c a b) ((selector value).applyAll [a, b]) := by
  -- the run of the condition is followed step by step
  induction hcond using ReflTransGen.head_induction_on with
  | refl => exact .head (step?_conditional_truth value ha hb) (.refl _ _)
  | head hstep _ ih =>
    exact .head (step?_conditional_condition hc ha hb hstep)
      (ih ((contracts_of_step? hstep).isClosed hc))

/-- The beta steps of the parts, those of one part after those of the other. -/
theorem betaSteps_conditional (hc : BetaSteps c c') (hc' : c'.betaStep? = none)
    (ha : BetaSteps a a') (ha' : a'.betaStep? = none) (hb : BetaSteps b b') :
    BetaSteps (conditional c a b) (conditional c' a' b') := by
  have hcondition : BetaSteps (conditional c a b) (conditional c' a b) :=
    hc.lift (f := (conditional · a b)) fun t t' h => by rw [betaStep?_conditional, h]; rfl
  have hfirst : BetaSteps (conditional c' a b) (conditional c' a' b) :=
    ha.lift (f := (conditional c' · b)) fun t t' h => by rw [betaStep?_conditional, hc', h]; rfl
  have hsecond : BetaSteps (conditional c' a' b) (conditional c' a' b') :=
    hb.lift (f := conditional c' a') fun t t' h => by rw [betaStep?_conditional, hc', ha', h]; rfl
  exact (hcondition.trans hfirst).trans hsecond

/-- A conditional is left only after the beta steps of both branches. -/
theorem betaHalts_of_steps_conditional (h : Steps rules (conditional c a b) u)
    (hu : ∀ c a b, u ≠ conditional c a b) : BetaHalts a ∧ BetaHalts b := by
  generalize ht : conditional c a b = t at h
  induction h using ReflTransGen.head_induction_on generalizing c a b with
  | refl => exact absurd ht.symm (hu c a b)
  | @head t t' hstep _ ih =>
    subst ht
    have next {c' a' b' : Term}
        (hbeta : (conditional c a b).betaStep? = some (conditional c' a' b')) :
        BetaHalts a' ∧ BetaHalts b' := by
      rw [step?_of_betaStep? hbeta] at hstep
      exact ih (Option.some.inj hstep)
    rw [betaStep?_conditional] at next
    cases hc : c.betaStep? with
    | some c' => exact next (by rw [hc]; rfl)
    | none =>
      cases ha : a.betaStep? with
      | some a' =>
        exact (next (by rw [hc, ha]; rfl)).imp_left (.of_betaStep? ha)
      | none =>
        cases hb : b.betaStep? with
        | some b' => exact (next (by rw [hc, ha, hb]; rfl)).imp_right (.of_betaStep? hb)
        | none => exact ⟨⟨a, .refl, ha⟩, ⟨b, .refl, hb⟩⟩

/-- If both branches run out of beta steps, the branch that the condition selects is left. -/
theorem steps_chosen {value : Bool} (hc : c.isClosed = true) (ha : a.isClosed = true)
    (hb : b.isClosed = true) (hcond : Steps DeltaRule.standard c (truth value))
    (hfirst : BetaHalts a) (hsecond : BetaHalts b) :
    ∃ t, BetaSteps (if value then a else b) t
      ∧ Steps DeltaRule.standard (conditional c a b) t := by
  obtain ⟨c', hcbeta, hc'⟩ := betaHalts_of_steps (step?_literal _ _) hcond
  obtain ⟨a', habeta, ha'⟩ := hfirst
  obtain ⟨b', hbbeta, hb'⟩ := hsecond
  have hcond' : Steps DeltaRule.standard c' (truth value) :=
    .of_steps (step?_literal _ _) hcond hcbeta.steps
  have hselect := steps_truth_conditional (isClosed_of_steps hcbeta.steps hc) ha' hb' hcond'
  have hdrop : Steps DeltaRule.standard ((selector value).applyAll [a', b'])
      (if value then a' else b') :=
    steps_selector value (isClosed_of_steps habeta.steps ha) (isClosed_of_steps hbbeta.steps hb)
  refine ⟨if value then a' else b', ?_, ?_⟩
  · cases value with
    | true => exact habeta
    | false => exact hbbeta
  · exact (betaSteps_conditional hcbeta hc' habeta ha' hbbeta).steps.trans (hselect.trans hdrop)

/-! ## Branches without a value -/

/-- The fixpoint of the identity, which the delta rules unfold without end. -/
def fixIdentity : Term := .app (.primitive .fix) (.abs "x" (.var "x"))

/-- The term that beta steps lead back to itself. -/
def omega : Term :=
  .app (.abs "x" (.app (.var "x") (.var "x"))) (.abs "x" (.app (.var "x") (.var "x")))

theorem not_betaHalts_omega : ¬ BetaHalts omega := by
  rintro ⟨t, hsteps, hnormal⟩
  have hloop : omega.betaStep? = some omega := by cbv
  have hstays {t : Term} (h : BetaSteps omega t) : t = omega := by
    induction h with
    | refl => rfl
    | tail _ hstep ih =>
      rw [ih, hloop] at hstep
      exact (Option.some.inj hstep).symm
  rw [hstays hsteps, hloop] at hnormal
  contradiction

/-- A conditional whose condition is evaluated to a truth value, and the branch that it selects to
a literal, is evaluated to that literal just if the beta steps of the other branch end. Nothing
else is asked of the other branch. -/
theorem steps_conditional_iff {value : Bool} {result : Literal} (hc : c.isClosed = true)
    (ha : a.isClosed = true) (hb : b.isClosed = true)
    (hcond : Steps DeltaRule.standard c (truth value))
    (hchosen : Steps DeltaRule.standard (if value then a else b) (literal result)) :
    Steps DeltaRule.standard (conditional c a b) (literal result)
        ∧ (literal result).step? DeltaRule.standard = none
      ↔ BetaHalts (if value then b else a) := by
  have hstop := step?_literal DeltaRule.standard result
  have hhalts : BetaHalts (if value then a else b) := betaHalts_of_steps hstop hchosen
  constructor
  · rintro ⟨h, -⟩
    obtain ⟨hfirst, hsecond⟩ := betaHalts_of_steps_conditional h nofun
    cases value with
    | true => exact hsecond
    | false => exact hfirst
  · intro hother
    obtain ⟨hfirst, hsecond⟩ : BetaHalts a ∧ BetaHalts b := by
      cases value with
      | true => exact ⟨hhalts, hother⟩
      | false => exact ⟨hother, hhalts⟩
    obtain ⟨t, hbeta, hsteps⟩ := steps_chosen hc ha hb hcond hfirst hsecond
    exact ⟨hsteps.trans (.of_steps hstop hchosen hbeta.steps), hstop⟩

/-- The fixpoint of the identity is no harm as the branch that is not taken. -/
theorem steps_conditional_iff_fix :
    let condition :=
      (Term.primitive (.operator .lt)).applyAll [.literal (.int 1), .literal (.int 2)]
    Steps DeltaRule.standard condition (truth true)
      ∧ (Term.app (.abs "x" (.var "x")) fixIdentity).step? DeltaRule.standard = some fixIdentity
      ∧ fixIdentity.step? DeltaRule.standard = some (.app (.abs "x" (.var "x")) fixIdentity)
      ∧ Steps DeltaRule.standard (conditional condition (.literal (.char 'y')) fixIdentity)
        (.literal (.char 'y')) := by
  intro condition
  have hcond : Steps DeltaRule.standard condition (truth true) := .head (by cbv) (.refl _ _)
  have hother : BetaHalts fixIdentity := ⟨_, .refl, by cbv⟩
  exact ⟨hcond, by cbv, by cbv, ((steps_conditional_iff (by decide) (by decide) (by decide) hcond
    (.refl _ _)).2 hother).1⟩

/-- A branch whose beta steps do not end keeps the conditional from its chosen branch. -/
theorem not_steps_conditional_omega :
    (truth true).isClosed = true ∧ (literal (.int 1)).isClosed = true ∧ omega.isClosed = true
      ∧ Steps DeltaRule.standard (truth true) (truth true)
      ∧ Steps DeltaRule.standard (literal (.int 1)) (literal (.int 1))
      ∧ (literal (.int 1)).step? DeltaRule.standard = none
      ∧ ¬ Steps DeltaRule.standard (conditional (truth true) (literal (.int 1)) omega)
          (literal (.int 1)) :=
  ⟨rfl, rfl, by decide, .refl _ _, .refl _ _, step?_literal _ _, fun h =>
    not_betaHalts_omega (betaHalts_of_steps_conditional h nofun).2⟩

end Term

end Clausal
