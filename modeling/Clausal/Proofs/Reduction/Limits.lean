import Clausal.Reduction.Bounded
import Mathlib

/-!
# Limits of reduction

A reduction without a limit may run forever. Whether it ends, in which term and after how many
steps, is told by `EndsIn`: in weak mode steps are made until there is none, in normal mode the
arguments of the head are then reduced in the same way, one after the other, and the steps of all
of them are added up.

A reduction within a limit counts the steps that are left instead, and hands what one argument
leaves on to the next. It ends just if the reduction without a limit ends in time.

## Main results

* `Term.runWeak_eq_some_iff`, `Term.runNormal_eq_some_iff`: a bounded run ends as the unbounded
  one does, with the steps that are left of those at the start;
* `Term.EndsIn.unique`: there is one end at most;
* `Term.reduce_within`: reduction within a limit is the reduction without one, up to that many
  steps.
-/

namespace Clausal.Term

variable {rules : List DeltaRule} {mode : ReductionMode} {t t' u u' : Term} {ts us : List Term}
  {n m budget left limit : Nat}

/-! ## Reduction without a limit -/

/-- Steps lead from a term to one without a step, and this is their number. -/
inductive StepsTo (rules : List DeltaRule) : Term → Term → Nat → Prop
  | stop {t : Term} (h : t.step? rules = none) : StepsTo rules t t 0
  | step {t t' u : Term} {n : Nat} (h : t.step? rules = some t') (hrest : StepsTo rules t' u n) :
      StepsTo rules t u (n + 1)

mutual

/-- Steps lead from a term to one without a step, and from its arguments on in the same way. The
number is that of all steps. -/
inductive Normalizes (rules : List DeltaRule) : Term → Term → Nat → Prop
  | spine {t t' : Term} {args : List Term} {n m : Nat} (hsteps : StepsTo rules t t' n)
      (hargs : NormalizesAll rules t'.args args m) :
      Normalizes rules t (t'.head.applyAll args) (n + m)

/-- The same for the terms of a list. -/
inductive NormalizesAll (rules : List DeltaRule) : List Term → List Term → Nat → Prop
  | nil : NormalizesAll rules [] [] 0
  | cons {t u : Term} {ts us : List Term} {n m : Nat} (hfirst : Normalizes rules t u n)
      (hrest : NormalizesAll rules ts us m) : NormalizesAll rules (t :: ts) (u :: us) (n + m)

end

/-- The reduction of a term without a limit ends, with a term after a number of steps. -/
def EndsIn (rules : List DeltaRule) (mode : ReductionMode) (t : Term) (r : Reduction) : Prop :=
  match mode with
  | .weak => StepsTo rules t r.term r.steps
  | .normal => Normalizes rules t r.term r.steps

/-! ## Bounded runs -/

theorem runWeak_of_none (h : t.step? rules = none) (budget : Nat) :
    runWeak rules budget t = some (t, budget) := by
  simp [runWeak, h]

theorem runWeak_of_some (h : t.step? rules = some t') (budget : Nat) :
    runWeak rules (budget + 1) t = runWeak rules budget t' := by
  simp [runWeak, h]

theorem StepsTo.runWeak_eq (h : StepsTo rules t u n) (left : Nat) :
    runWeak rules (n + left) t = some (u, left) := by
  induction h with
  | stop h => rw [runWeak_of_none h, Nat.zero_add]
  | step h _ ih => rw [Nat.add_right_comm, runWeak_of_some h, ih]

/-- A weak run with a budget ends if no more steps are needed, and leaves the others. -/
theorem runWeak_eq_some_iff :
    runWeak rules budget t = some (u, left) ↔ ∃ n, StepsTo rules t u n ∧ n + left = budget := by
  constructor
  · intro h
    fun_induction runWeak rules budget t with
    | case1 budget t hstep =>
      obtain ⟨rfl, rfl⟩ := Prod.mk.inj (Option.some.inj h)
      exact ⟨0, .stop hstep, Nat.zero_add _⟩
    | case2 => contradiction
    | case3 t t' budget hstep ih =>
      obtain ⟨n, hsteps, rfl⟩ := ih h
      exact ⟨n + 1, .step hstep hsteps, by omega⟩
  · rintro ⟨n, h, rfl⟩
    exact h.runWeak_eq left

/-- A normal run is a weak run and then the runs of the arguments. -/
theorem map_val_runNormal (rules : List DeltaRule) (budget : Nat) (t : Term) :
    (runNormal rules budget t).map Subtype.val = (runWeak rules budget t).bind fun (t', left) =>
      ((runNormalAll rules left t'.args).map Subtype.val).map fun (args, left) =>
        (t'.head.applyAll args, left) := by
  rw [runNormal]
  split
  · next h => rw [h]; rfl
  · next t' left h =>
    refine .trans ?_ (congrArg (Option.bind · _) h).symm
    rw [Option.bind_some, Option.map_map]
    dsimp only
    rw [Option.map_map]
    rfl

/-- The runs of a list are that of the first term and then those of the rest. -/
theorem map_val_runNormalAll_cons (rules : List DeltaRule) (budget : Nat) (t : Term)
    (ts : List Term) :
    (runNormalAll rules budget (t :: ts)).map Subtype.val
      = ((runNormal rules budget t).map Subtype.val).bind fun (t', left) =>
        ((runNormalAll rules left ts).map Subtype.val).map fun (ts', left) =>
          (t' :: ts', left) := by
  rw [runNormalAll]
  split
  · next h => rw [h]; rfl
  · next t' left _ h =>
    rw [h, Option.map_some, Option.bind_some, Option.map_map]
    dsimp only
    rw [Option.map_map]
    rfl

mutual

theorem Normalizes.runNormal_eq {rules : List DeltaRule} {t u : Term} {n : Nat}
    (h : Normalizes rules t u n) (left : Nat) :
    (runNormal rules (n + left) t).map Subtype.val = some (u, left) := by
  match h with
  | .spine hsteps hargs =>
    -- the arguments start with the steps that the spine leaves
    rw [map_val_runNormal, Nat.add_assoc, hsteps.runWeak_eq, Option.bind_some]
    dsimp only
    rw [hargs.runNormalAll_eq left]
    rfl

theorem NormalizesAll.runNormalAll_eq {rules : List DeltaRule} {ts us : List Term} {n : Nat}
    (h : NormalizesAll rules ts us n) (left : Nat) :
    (runNormalAll rules (n + left) ts).map Subtype.val = some (us, left) := by
  match h with
  | .nil =>
    rw [runNormalAll, Nat.zero_add]
    rfl
  | .cons hfirst hrest =>
    -- and each of them with the steps that those before it leave
    rw [map_val_runNormalAll_cons, Nat.add_assoc, hfirst.runNormal_eq, Option.bind_some]
    dsimp only
    rw [hrest.runNormalAll_eq left]
    rfl

end

/-- A normal run with a budget ends only if no more steps are needed. -/
theorem exists_normalizes_of_runNormal
    (h : (runNormal rules budget t).map Subtype.val = some (u, left)) :
    ∃ n, Normalizes rules t u n ∧ n + left = budget := by
  -- by induction on the run, with the same for the runs of lists
  refine runNormal.induct rules
    (fun budget t => ∀ u left, (runNormal rules budget t).map Subtype.val = some (u, left) →
      ∃ n, Normalizes rules t u n ∧ n + left = budget)
    (fun budget ts => ∀ us left, (runNormalAll rules budget ts).map Subtype.val = some (us, left) →
      ∃ n, NormalizesAll rules ts us n ∧ n + left = budget)
    ?stuck ?spine ?nil ?stuckFirst ?cons budget t u left h
  case stuck =>
    intro budget t hweak u left h
    rw [map_val_runNormal, hweak] at h
    contradiction
  case spine =>
    intro budget t t' left' hweak ih u left h
    rw [map_val_runNormal, hweak, Option.bind_some] at h
    obtain ⟨⟨args, left⟩, hargs, heq⟩ := Option.map_eq_some_iff.1 h
    obtain ⟨rfl, rfl⟩ := Prod.mk.inj heq
    obtain ⟨n, hsteps, rfl⟩ := runWeak_eq_some_iff.1 hweak
    obtain ⟨m, hall, rfl⟩ := ih args left hargs
    exact ⟨n + m, .spine hsteps hall, Nat.add_assoc ..⟩
  case nil =>
    intro budget us left h
    rw [runNormalAll] at h
    obtain ⟨rfl, rfl⟩ := Prod.mk.inj (Option.some.inj h)
    exact ⟨0, .nil, Nat.zero_add _⟩
  case stuckFirst =>
    intro budget t ts hnone _ us left h
    rw [map_val_runNormalAll_cons, hnone] at h
    contradiction
  case cons =>
    intro budget t ts t' left' _ hfirst ih₁ ih₂ us left h
    rw [map_val_runNormalAll_cons, hfirst, Option.map_some, Option.bind_some] at h
    obtain ⟨⟨ts', left⟩, hrest, heq⟩ := Option.map_eq_some_iff.1 h
    obtain ⟨rfl, rfl⟩ := Prod.mk.inj heq
    obtain ⟨n, hnormal, rfl⟩ := ih₁ t' left' (congrArg (Option.map Subtype.val) hfirst)
    obtain ⟨m, hall, rfl⟩ := ih₂ ts' left hrest
    exact ⟨n + m, .cons hnormal hall, Nat.add_assoc ..⟩

/-- A normal run with a budget ends if no more steps are needed, and leaves the others. -/
theorem runNormal_eq_some_iff :
    (runNormal rules budget t).map Subtype.val = some (u, left)
      ↔ ∃ n, Normalizes rules t u n ∧ n + left = budget := by
  constructor
  · exact exists_normalizes_of_runNormal
  · rintro ⟨n, h, rfl⟩
    exact h.runNormal_eq left

/-- The bounded run that a mode calls for. -/
def run (rules : List DeltaRule) (mode : ReductionMode) (budget : Nat) (t : Term) :
    Option (Term × Nat) :=
  match mode with
  | .weak => runWeak rules budget t
  | .normal => (runNormal rules budget t).map Subtype.val

/-- A run with a budget ends if no more steps are needed, and leaves the others. -/
theorem run_eq_some_iff :
    run rules mode budget t = some (u, left)
      ↔ ∃ n, t.EndsIn rules mode ⟨u, n⟩ ∧ n + left = budget := by
  cases mode with
  | weak => exact runWeak_eq_some_iff
  | normal => exact runNormal_eq_some_iff

/-! ## Reduction within a limit -/

/-- A reduction is a run with the limit as its budget, of which the steps left are not made. -/
theorem reduce_eq_run (rules : List DeltaRule) (mode : ReductionMode) (limit : Nat) (t : Term) :
    t.reduce rules mode limit
      = match run rules mode limit t with
        | some (u, left) => .ok ⟨u, limit - left⟩
        | none => .error ⟨limit⟩ := by
  cases mode <;> rfl

/-- A reduction within a limit ends just if the one without a limit ends in time, and as that
does. -/
theorem reduce_eq_ok_iff {r : Reduction} :
    t.reduce rules mode limit = .ok r ↔ t.EndsIn rules mode r ∧ r.steps ≤ limit := by
  rw [reduce_eq_run]
  constructor
  · intro h
    split at h
    · next u left hrun =>
      obtain ⟨n, hends, rfl⟩ := run_eq_some_iff.1 hrun
      rw [Nat.add_sub_cancel] at h
      obtain rfl := Except.ok.inj h
      exact ⟨hends, Nat.le_add_right ..⟩
    · contradiction
  · rintro ⟨hends, hle⟩
    rw [run_eq_some_iff.2 ⟨r.steps, hends, Nat.add_sub_cancel' hle⟩]
    dsimp only
    rw [Nat.sub_sub_self hle]

/-- There is no other failure than that of the limit. -/
theorem reduce_eq_error_of_ne_ok (h : ∀ r, t.reduce rules mode limit ≠ .ok r) :
    t.reduce rules mode limit = .error ⟨limit⟩ := by
  rw [reduce_eq_run] at h ⊢
  split
  · next hrun =>
    rw [hrun] at h
    exact absurd rfl (h _)
  · rfl

/-- There is one end at most. -/
theorem EndsIn.unique {r r' : Reduction} (h : t.EndsIn rules mode r)
    (h' : t.EndsIn rules mode r') : r = r' := by
  -- a limit that is high enough for both of them
  have hr := reduce_eq_ok_iff.2 ⟨h, Nat.le_max_left r.steps r'.steps⟩
  have hr' := reduce_eq_ok_iff.2 ⟨h', Nat.le_max_right r.steps r'.steps⟩
  exact Except.ok.inj (hr.symm.trans hr')

theorem StepsTo.unique (h : StepsTo rules t u n) (h' : StepsTo rules t u' m) : u = u' ∧ n = m := by
  have hweak : t.EndsIn rules .weak ⟨u, n⟩ := h
  exact Reduction.mk.inj (hweak.unique h')

theorem Normalizes.unique (h : Normalizes rules t u n) (h' : Normalizes rules t u' m) :
    u = u' ∧ n = m := by
  have hnormal : t.EndsIn rules .normal ⟨u, n⟩ := h
  exact Reduction.mk.inj (hnormal.unique h')

/-- Reduction within a limit succeeds just if the reduction without a limit ends after no more
steps than that, with the same term and the same number of steps, which a higher limit does not
change. Otherwise the limit is exceeded. -/
theorem reduce_within (rules : List DeltaRule) (mode : ReductionMode) (limit : Nat) (t : Term) :
    (∀ r, t.reduce rules mode limit = .ok r ↔ t.EndsIn rules mode r ∧ r.steps ≤ limit)
      ∧ (t.reduce rules mode limit = .error ⟨limit⟩
        ↔ ¬∃ r, t.EndsIn rules mode r ∧ r.steps ≤ limit)
      ∧ (∀ r r', t.EndsIn rules mode r → t.EndsIn rules mode r' → r = r')
      ∧ ∀ limit' r, limit ≤ limit' → t.reduce rules mode limit = .ok r →
        t.reduce rules mode limit' = .ok r := by
  refine ⟨fun r => reduce_eq_ok_iff, ⟨?_, ?_⟩, fun r r' => EndsIn.unique, ?_⟩
  · rintro herror ⟨r, hr⟩
    rw [reduce_eq_ok_iff.2 hr] at herror
    contradiction
  · intro hnone
    exact reduce_eq_error_of_ne_ok fun r hr => hnone ⟨r, reduce_eq_ok_iff.1 hr⟩
  · intro limit' r hle hr
    obtain ⟨hends, hsteps⟩ := reduce_eq_ok_iff.1 hr
    exact reduce_eq_ok_iff.2 ⟨hends, hsteps.trans hle⟩

/-- The two sums of a pair take a step each, so a limit of one step is passed in the second. -/
theorem reduce_within_pair :
    let sum := (Term.primitive (.operator .plus)).applyAll [.literal (.int 1), .literal (.int 2)]
    let pair := (Term.primitive (.tuple 2)).applyAll [sum, sum]
    let result := (Term.primitive (.tuple 2)).applyAll [.literal (.int 3), .literal (.int 3)]
    pair.EndsIn DeltaRule.standard .normal ⟨result, 2⟩
      ∧ pair.reduce DeltaRule.standard .normal 7 = .ok ⟨result, 2⟩
      ∧ pair.reduce DeltaRule.standard .normal 1 = .error ⟨1⟩ := by
  intro sum pair result
  have hstep : sum.step? DeltaRule.standard = some (.literal (.int 3)) := by cbv
  have hstop : (literal (.int 3)).step? DeltaRule.standard = none := by cbv
  have hsum : Normalizes DeltaRule.standard sum (.literal (.int 3)) 1 :=
    .spine (.step hstep (.stop hstop)) .nil
  have hpair : pair.step? DeltaRule.standard = none := by cbv
  have hends : pair.EndsIn DeltaRule.standard .normal ⟨result, 2⟩ :=
    Normalizes.spine (.stop hpair) (.cons hsum (.cons hsum .nil))
  obtain ⟨hok, -⟩ := reduce_within DeltaRule.standard .normal 7 pair
  obtain ⟨-, herror, hunique, -⟩ := reduce_within DeltaRule.standard .normal 1 pair
  refine ⟨hends, (hok _).2 ⟨hends, by decide⟩, herror.2 ?_⟩
  -- no other end is reached in time
  rintro ⟨r, hr, hle⟩
  rw [hunique r _ hr hends] at hle
  contradiction

end Clausal.Term
