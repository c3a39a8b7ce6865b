import Clausal.Proofs.Simplification.Stages

/-!
# Related runs

Runs of rules from two expressions go the same way if every rule does the same to both, at places
that correspond. So a run within a part of an expression goes as a run from the part alone, if
nothing ever fires around it.

## Main results

* `toFixpoint_related`: expressions to which the rules do the same come to related results;
* `toFixpoint_frame`: a run within a frame;
* `fireFirst_of_core`: nothing fires in an expression that has a core expression.
-/

namespace Clausal

variable {options : SimplifyOptions} {rules : List Rule} {supply : FreshSupply} {e e' : Expr}
  {S : Expr → Expr → Prop}

/-! ## Related attempts and runs -/

/-- Attempts that come out in the same way, with related results. -/
inductive Attempt.Related (S : Expr → Expr → Prop) : Attempt Expr → Attempt Expr → Prop
  | error (error : ClauseError) : Related S (.error error) (.error error)
  | none : Related S (.ok none) (.ok none)
  | some {e e' : Expr} (supply : FreshSupply) : S e e' →
    Related S (.ok (some (e, supply))) (.ok (some (e', supply)))

/-- Runs in which the same rules fire, with related results. -/
inductive Run.Related (S : Expr → Expr → Prop) : Run → Run → Prop
  | error (fired : List Rule) (error : ClauseError) :
    Related S ⟨fired, .error error⟩ ⟨fired, .error error⟩
  | ok (fired : List Rule) {e e' : Expr} (supply : FreshSupply) : S e e' →
    Related S ⟨fired, .ok (e, supply)⟩ ⟨fired, .ok (e', supply)⟩

theorem Run.Related.after {run run' : Run} (h : run.Related S run') (fired : List Rule) :
    (run.after fired).Related S (run'.after fired) := by
  cases h with
  | error _ error => exact .error _ error
  | ok _ supply hS => exact .ok _ supply hS

section

variable (hS : ∀ e e', S e e' → ∀ rule ∈ rules, ∀ supply,
  Attempt.Related S (fireFirst (rule.fire options supply) e)
    (fireFirst (rule.fire options supply) e'))

include hS

theorem round_related (supply : FreshSupply) (h : S e e') :
    (round options rules supply e).Related S (round options rules supply e') := by
  induction rules generalizing e e' supply with
  | nil => exact .ok [] supply h
  | cons rule rules ih =>
    have ih (supply : FreshSupply) {e e' : Expr} (h : S e e') :
        (round options rules supply e).Related S (round options rules supply e') :=
      ih (fun e e' h rule hrule => hS e e' h rule (List.mem_cons_of_mem _ hrule)) supply h
    have hrule := hS e e' h rule List.mem_cons_self supply
    rw [round, round]
    generalize fireFirst (rule.fire options supply) e = attempt at hrule
    generalize fireFirst (rule.fire options supply) e' = attempt' at hrule
    cases hrule with
    | error error => exact .error [] error
    | none => exact ih supply h
    | some supply h => exact (ih supply h).after [rule]

/-- Expressions to which every rule does the same come to related results. -/
theorem toFixpoint_related (h : S e e') :
    (toFixpoint options rules supply e).Related S (toFixpoint options rules supply e') := by
  induction supply, e using toFixpoint.induct options rules generalizing e' with
  | case1 supply e fired error hround =>
    have hrelated := round_related hS supply h
    rw [hround] at hrelated
    generalize hround' : round options rules supply e' = run' at hrelated
    cases hrelated with
    | error _ _ =>
      rw [toFixpoint_of_round_error hround, toFixpoint_of_round_error hround']
      exact .error fired error
  | case2 supply e e₁ supply₁ hround =>
    have hrelated := round_related hS supply h
    rw [hround] at hrelated
    generalize hround' : round options rules supply e' = run' at hrelated
    cases hrelated with
    | ok _ _ h =>
      rw [toFixpoint_of_round_nil hround, toFixpoint_of_round_nil hround']
      exact .ok [] supply₁ h
  | case3 supply e rule fired e₁ supply₁ hround ih =>
    have hrelated := round_related hS supply h
    rw [hround] at hrelated
    generalize hround' : round options rules supply e' = run' at hrelated
    cases hrelated with
    | ok _ _ h =>
      rw [toFixpoint_of_round_cons hround, toFixpoint_of_round_cons hround']
      exact (ih h).after (rule :: fired)

end

/-! ## Frames -/

/-- What is built around an expression in which alone rules fire. -/
def Frame (options : SimplifyOptions) (rules : List Rule) (f : Expr → Expr) : Prop :=
  ∀ rule ∈ rules, ∀ supply e, fireFirst (rule.fire options supply) (f e)
    = (fireFirst (rule.fire options supply) e).map f

namespace Frame

variable {f g : Expr → Expr}

theorem hole : Frame options rules fun e => e := by
  intro rule _ supply e
  obtain ⟨error, h⟩ | h | ⟨e', supply', h⟩ :=
    (fireFirst (rule.fire options supply) e).eq_error_or_none_or_some <;> rw [h] <;> rfl

theorem comp (hf : Frame options rules f) (hg : Frame options rules g) :
    Frame options rules fun e => f (g e) := by
  intro rule hrule supply e
  rw [hf rule hrule, hg rule hrule, Attempt.map_map]
  rfl

/-- A run within a frame. -/
theorem toFixpoint_eq_ok (hf : Frame options rules f) {supply' : FreshSupply}
    (h : (toFixpoint options rules supply e).result = .ok (e', supply')) :
    (toFixpoint options rules supply (f e)).result = .ok (f e', supply') := by
  have hrelated : (toFixpoint options rules supply (f e)).Related (fun c c' => c = f c')
      (toFixpoint options rules supply e) := by
    refine toFixpoint_related ?_ rfl
    rintro _ e rfl rule hrule supply
    rw [hf rule hrule]
    obtain ⟨error, h⟩ | h | ⟨e', supply', h⟩ :=
      (fireFirst (rule.fire options supply) e).eq_error_or_none_or_some <;> rw [h]
    · exact .error error
    · exact .none
    · exact .some supply' rfl
  generalize toFixpoint options rules supply e = run at h hrelated
  generalize toFixpoint options rules supply (f e) = run' at hrelated
  cases hrelated with
  | error _ _ => contradiction
  | ok fired supply hS =>
    cases h
    rw [hS]

end Frame

/-! ## Expressions in which nothing fires -/

/-- No rule fires at a node that core expressions have. -/
theorem Rule.idle_of_admits_core (rule : Rule) (h : Grammar.core.Admits e) : rule.Idle e := by
  intro options supply
  cases e with
  | var _ | lit _ | con _ | prim _ | app _ _ | tuple _ | cond _ _ _ => cases rule <;> rfl
  | lam params body =>
    obtain ⟨name, rfl⟩ := h
    cases rule <;> rfl
  | caseOf _ _ => exact h.elim
  | letIn decls body =>
    obtain h | ⟨name, h⟩ := h
    · obtain rfl := List.map_eq_nil_iff.1 h
      cases rule <;> rfl
    · obtain ⟨decl, rfl, hdecl⟩ := List.map_eq_singleton_iff.1 h
      cases decl with
      | value pattern value =>
        cases hdecl
        cases rule <;> rfl
      | clause _ _ _ | data _ => cases hdecl

/-- Nothing fires in an expression that has a core expression. -/
theorem fireFirst_of_core (rule : Rule) (h : Grammar.core.Generates e) :
    fireFirst (rule.fire options supply) e = .ok none :=
  Rule.fireFirst_eq_none_iff_idle.2 (h.imp fun _ => rule.idle_of_admits_core)

/-- A run from an expression that has a core expression changes nothing. -/
theorem toFixpoint_of_core (rules : List Rule) (supply : FreshSupply)
    (h : Grammar.core.Generates e) :
    (toFixpoint options rules supply e).result = .ok (e, supply) := by
  have hround : round options rules supply e = ⟨[], .ok (e, supply)⟩ :=
    round_eq_self_iff.2 fun rule _ => h.imp fun _ => rule.idle_of_admits_core
  rw [toFixpoint_of_round_nil hround]

/-- A block around an expression, if nothing fires at the block and in its values. -/
theorem Frame.letIn {decls : List (Decl Expr)}
    (hroot : ∀ rule ∈ rules, ∀ supply body, rule.fire options supply (.letIn decls body) = .ok none)
    (hvalues : ∀ value ∈ Decl.bodies decls, Grammar.core.Generates value) :
    Frame options rules (Expr.letIn decls) := by
  intro rule hrule supply body
  have hdecls : fireFirstOfDecls (rule.fire options supply) decls = .ok none := by
    rw [fireFirstOfDecls_eq, Attempt.map_eq_none, fireFirstOf_eq_none_iff]
    exact fun value hvalue => fireFirst_of_core rule (hvalues value hvalue)
  rw [fireFirst.eq_def, hroot rule hrule, Attempt.none_orElse]
  dsimp only
  rw [hdecls, Attempt.map_none, Attempt.none_orElse]

/-- A function of one variable around an expression. -/
theorem Frame.lam1 (name : String) : Frame options rules (Expr.lam1 name) := by
  intro rule _ supply body
  rw [Expr.lam1, fireFirst.eq_def]
  cases rule <;> rfl

/-- A function of one variable around an expression, applied to an argument. -/
theorem Frame.app1_lam1 (name : String) {arg : Expr} (harg : Grammar.core.Generates arg) :
    Frame options rules fun body => .app1 (.lam1 name body) arg := by
  intro rule hrule supply body
  have hlam : fireFirst (rule.fire options supply) (.lam1 name body)
      = (fireFirst (rule.fire options supply) body).map (.lam1 name) :=
    Frame.lam1 name rule hrule supply body
  have hroot : rule.fire options supply (.app1 (.lam1 name body) arg) = .ok none := by
    cases rule <;> rfl
  rw [fireFirst.eq_def, hroot, Attempt.none_orElse]
  dsimp only [Expr.app1]
  rw [fireFirstOf_singleton, fireFirst_of_core rule harg, hlam, Attempt.map_map]
  obtain ⟨error, h⟩ | h | ⟨body', supply', h⟩ :=
    (fireFirst (rule.fire options supply) body).eq_error_or_none_or_some <;> rw [h] <;> rfl

end Clausal
