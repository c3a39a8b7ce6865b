import Clausal.Proofs.Simplification.Clauses

/-!
# Runs of simplification rules

A round and a whole run to the fixpoint are sequences of firings, each of one rule at the first
place where it can. Firing lowers the weight, so no sequence goes on forever, in whatever order
the rules are tried. A run that ends without an error ends where no rule has anything to do, with
any options and any supply.

## Main results

* `wellFounded_fires`, `wellFounded_changes`: no sequence of firings, and so no sequence of
  rounds, goes on forever;
* `round_eq_self_iff`: a round changes nothing just if no rule has anything to do anywhere;
* `toFixpoint_eq_ok`: a run is a sequence of firings to an expression that a round does not
  change;
* `toFixpoint_eq_error`: a run fails only where a firing fails.
-/

namespace Clausal

variable {options : SimplifyOptions} {rule : Rule} {rules : List Rule}
  {supply supply' : FreshSupply} {e e' : Expr}

/-! ## Rules with nothing to do -/

namespace Rule

/-- A rule has nothing to do at an expression, with any options and any supply. -/
def Idle (rule : Rule) (e : Expr) : Prop :=
  ∀ options supply, rule.fire options supply e = .ok none

/-- Neither the options nor the supply tell whether a rule has something to do. -/
theorem idle_of_fire_eq_none (h : rule.fire options supply e = .ok none) : rule.Idle e := by
  intro options' supply'
  -- every rule decides by the form of the expression alone
  cases rule with
  | clauseFusion =>
    cases e with
    | letIn decls body =>
      simp only [fire, Attempt.map_eq_none, fuseClauses_eq_none_iff] at h ⊢
      exact h
    | _ => rfl
  | currying => simpa [fire] using h
  | patternLambda =>
    simp only [fire, liftPattern?, Except.ok.injEq] at h ⊢
    split at h
    · split at h
      · next hvar => simp [hvar]
      · cases h
    · rfl
  | caseElimination =>
    cases e with
    | caseOf scrutinee arms =>
      simp only [fire, expandCase?, Except.ok.injEq] at h
      split at h <;> cases h
    | _ => rfl
  | letTupleFlattening =>
    simp only [fire, flattenTuple?, Except.ok.injEq] at h ⊢
    split at h
    · cases h
    · split at h
      · next hpattern => simp [hpattern]
      · cases h
    · rfl
  | groupNesting => simpa [fire] using h

/-- A rule that fires nowhere has nothing to do anywhere. -/
theorem fireFirst_eq_none_iff_idle :
    fireFirst (rule.fire options supply) e = .ok none ↔ e.Everywhere rule.Idle := by
  rw [fireFirst_eq_none_iff]
  constructor
  · exact fun h => h.imp fun _ => idle_of_fire_eq_none
  · exact fun h => h.imp fun _ hidle => hidle options supply

end Rule

/-! ## Firings -/

/-- A rule of a list fires at the first place where it can. -/
def Fires (options : SimplifyOptions) (rules : List Rule) (state state' : Expr × FreshSupply) :
    Prop :=
  ∃ rule ∈ rules, fireFirst (rule.fire options state.2) state.1 = .ok (some state')

/-- No sequence of firings goes on forever. -/
theorem wellFounded_fires (options : SimplifyOptions) (rules : List Rule) :
    WellFounded fun after before => Fires options rules before after := by
  refine Subrelation.wf (r := InvImage (· < ·) fun state => state.1.weight) ?_
    (InvImage.wf _ Nat.lt_wfRel.wf)
  rintro after before ⟨rule, -, h⟩
  exact weight_lt_of_fireFirst h

/-- More rules fire in more ways. -/
theorem fires_cons_of_fires {before after : Expr × FreshSupply}
    (h : Relation.ReflTransGen (Fires options rules) before after) :
    Relation.ReflTransGen (Fires options (rule :: rules)) before after := by
  refine Relation.ReflTransGen.mono ?_ _ _ h
  rintro _ _ ⟨other, hother, hfire⟩
  exact ⟨other, List.mem_cons_of_mem rule hother, hfire⟩

/-! ## Rounds -/

/-- A round that ends without an error is a sequence of firings. -/
theorem round_eq_ok {after : Expr × FreshSupply}
    (h : (round options rules supply e).result = .ok after) :
    Relation.ReflTransGen (Fires options rules) (e, supply) after := by
  induction rules generalizing supply e with
  | nil =>
    rw [round] at h
    exact Except.ok.inj h ▸ .refl
  | cons rule rules ih =>
    rw [round.eq_def] at h
    dsimp only at h
    split at h
    · cases h
    · exact fires_cons_of_fires (ih h)
    · next e₁ supply₁ hfire =>
      have hfirst : Fires options (rule :: rules) (e, supply) (e₁, supply₁) :=
        ⟨rule, List.mem_cons_self, hfire⟩
      exact .head hfirst (fires_cons_of_fires (ih h))

/-- A round that fails is a sequence of firings up to one that fails. -/
theorem round_eq_error {error : ClauseError}
    (h : (round options rules supply e).result = .error error) :
    ∃ state, Relation.ReflTransGen (Fires options rules) (e, supply) state
      ∧ ∃ rule ∈ rules, fireFirst (rule.fire options state.2) state.1 = .error error := by
  induction rules generalizing supply e with
  | nil =>
    rw [round] at h
    cases h
  | cons rule rules ih =>
    rw [round.eq_def] at h
    dsimp only at h
    split at h
    · next hfire =>
      cases h
      exact ⟨(e, supply), .refl, rule, List.mem_cons_self, hfire⟩
    · obtain ⟨state, hsteps, failing, hmem, hfail⟩ := ih h
      exact ⟨state, fires_cons_of_fires hsteps, failing, List.mem_cons_of_mem _ hmem,
        hfail⟩
    · next e₁ supply₁ hfire =>
      obtain ⟨state, hsteps, failing, hmem, hfail⟩ := ih h
      have hfirst : Fires options (rule :: rules) (e, supply) (e₁, supply₁) :=
        ⟨rule, List.mem_cons_self, hfire⟩
      exact ⟨state, .head hfirst (fires_cons_of_fires hsteps), failing,
        List.mem_cons_of_mem _ hmem, hfail⟩

/-- A round in which no rule fires leaves everything as it was. -/
theorem round_eq_nil {after : Expr × FreshSupply}
    (h : round options rules supply e = ⟨[], .ok after⟩) :
    after = (e, supply) ∧ ∀ rule ∈ rules, e.Everywhere rule.Idle := by
  induction rules with
  | nil =>
    rw [round, Run.mk.injEq] at h
    exact ⟨(Except.ok.inj h.2).symm, by simp⟩
  | cons rule rules ih =>
    rw [round.eq_def] at h
    dsimp only at h
    split at h
    · cases h
    · next hnone =>
      obtain ⟨hafter, hidle⟩ := ih h
      exact ⟨hafter, List.forall_mem_cons.2 ⟨Rule.fireFirst_eq_none_iff_idle.1 hnone, hidle⟩⟩
    · cases h

/-- A round changes nothing just if no rule has anything to do anywhere. -/
theorem round_eq_self_iff :
    round options rules supply e = ⟨[], .ok (e, supply)⟩
      ↔ ∀ rule ∈ rules, e.Everywhere rule.Idle := by
  constructor
  · exact fun h => (round_eq_nil h).2
  · intro h
    induction rules with
    | nil => rw [round]
    | cons rule rules ih =>
      obtain ⟨hrule, hrules⟩ := List.forall_mem_cons.1 h
      rw [round.eq_def]
      dsimp only
      rw [Rule.fireFirst_eq_none_iff_idle.2 hrule]
      exact ih hrules

/-- A round in which a rule fires is a sequence of at least one firing. -/
theorem transGen_of_round_eq_cons {fired : List Rule} {after : Expr × FreshSupply}
    (h : round options rules supply e = ⟨rule :: fired, .ok after⟩) :
    Relation.TransGen (Fires options rules) (e, supply) after := by
  refine (Relation.reflTransGen_iff_eq_or_transGen.1 (round_eq_ok (by rw [h]))).resolve_left ?_
  rintro rfl
  -- the weight is less after a firing, so the round did not end where it began
  have hweight := weight_add_length_fired_le (congrArg Run.result h)
  rw [h, List.length_cons] at hweight
  omega

/-- A round in which some rule fires and none fails. -/
def Changes (options : SimplifyOptions) (rules : List Rule) (state state' : Expr × FreshSupply) :
    Prop :=
  ∃ rule fired, round options rules state.2 state.1 = ⟨rule :: fired, .ok state'⟩

/-- No sequence of rounds that change something goes on forever. -/
theorem wellFounded_changes (options : SimplifyOptions) (rules : List Rule) :
    WellFounded fun after before => Changes options rules before after := by
  refine Subrelation.wf ?_ (wellFounded_fires options rules).transGen
  rintro after before ⟨rule, fired, h⟩
  exact Relation.transGen_swap.1 (transGen_of_round_eq_cons h)

/-! ## Runs to the fixpoint -/

theorem toFixpoint_of_round_error {fired : List Rule} {error : ClauseError}
    (h : round options rules supply e = ⟨fired, .error error⟩) :
    toFixpoint options rules supply e = ⟨fired, .error error⟩ := by
  rw [toFixpoint.eq_def]
  split
  · next hround => rw [← hround, h]
  · next hround =>
    rw [h] at hround
    cases hround
  · next hround =>
    rw [h] at hround
    cases hround

theorem toFixpoint_of_round_nil {after : Expr × FreshSupply}
    (h : round options rules supply e = ⟨[], .ok after⟩) :
    toFixpoint options rules supply e = ⟨[], .ok after⟩ := by
  rw [toFixpoint.eq_def]
  split
  · next hround =>
    rw [h] at hround
    cases hround
  · next hround => rw [← hround, h]
  · next hround =>
    rw [h] at hround
    cases hround

theorem toFixpoint_of_round_cons {fired : List Rule}
    (h : round options rules supply e = ⟨rule :: fired, .ok (e', supply')⟩) :
    toFixpoint options rules supply e
      = (toFixpoint options rules supply' e').after (rule :: fired) := by
  rw [toFixpoint.eq_def]
  split
  · next hround =>
    rw [h] at hround
    cases hround
  · next hround =>
    rw [h] at hround
    cases hround
  · next hround =>
    rw [h] at hround
    cases hround
    rfl

/-- A run that ends without an error is a sequence of firings to an expression in which no rule
has anything to do. -/
theorem toFixpoint_eq_ok {after : Expr × FreshSupply}
    (h : (toFixpoint options rules supply e).result = .ok after) :
    Relation.ReflTransGen (Fires options rules) (e, supply) after
      ∧ ∀ rule ∈ rules, after.1.Everywhere rule.Idle := by
  induction supply, e using toFixpoint.induct options rules with
  | case1 supply e fired error hround =>
    rw [toFixpoint_of_round_error hround] at h
    cases h
  | case2 supply e e' supply' hround =>
    rw [toFixpoint_of_round_nil hround] at h
    cases h
    obtain ⟨hafter, hidle⟩ := round_eq_nil hround
    cases hafter
    exact ⟨.refl, hidle⟩
  | case3 supply e rule fired e' supply' hround ih =>
    rw [toFixpoint_of_round_cons hround] at h
    obtain ⟨hsteps, hidle⟩ := ih h
    exact ⟨(transGen_of_round_eq_cons hround).to_reflTransGen.trans hsteps, hidle⟩

/-- A run that fails is a sequence of firings up to one that fails. -/
theorem toFixpoint_eq_error {error : ClauseError}
    (h : (toFixpoint options rules supply e).result = .error error) :
    ∃ state, Relation.ReflTransGen (Fires options rules) (e, supply) state
      ∧ ∃ rule ∈ rules, fireFirst (rule.fire options state.2) state.1 = .error error := by
  induction supply, e using toFixpoint.induct options rules with
  | case1 supply e fired error hround =>
    rw [toFixpoint_of_round_error hround] at h
    exact round_eq_error (by rw [hround, h])
  | case2 supply e e' supply' hround =>
    rw [toFixpoint_of_round_nil hround] at h
    cases h
  | case3 supply e rule fired e' supply' hround ih =>
    rw [toFixpoint_of_round_cons hround] at h
    obtain ⟨state, hsteps, hfail⟩ := ih h
    exact ⟨state, (transGen_of_round_eq_cons hround).to_reflTransGen.trans hsteps, hfail⟩

end Clausal
