import Clausal.Simplification.Decrease

/-!
# Simplification to a fixpoint

`fireFirst` applies a rule at the first place where it fires, a node before its parts and the
parts from left to right. A round tries each rule of a list once; `toFixpoint` makes rounds until
one changes nothing. It ends because every rule lowers the weight of the expression
(`weight_add_length_fired_le`).
-/

namespace Clausal

mutual

/-- Makes a change at the first place in an expression where it has something to do. -/
def fireFirst (change : Expr → Attempt Expr) (e : Expr) : Attempt Expr :=
  (change e).orElse fun _ => match e with
    | .var _ | .lit _ | .con _ | .prim _ => .ok none
    | .app func args =>
      ((fireFirst change func).map (.app · args)).orElse fun _ =>
        (fireFirstOf change args).map (.app func)
    | .tuple elements => (fireFirstOf change elements).map .tuple
    | .lam params body => (fireFirst change body).map (.lam params)
    | .cond condition positive negative =>
      ((fireFirst change condition).map (.cond · positive negative)).orElse fun _ =>
        ((fireFirst change positive).map (.cond condition · negative)).orElse fun _ =>
          (fireFirst change negative).map (.cond condition positive)
    | .letIn decls body =>
      ((fireFirstOfDecls change decls).map (.letIn · body)).orElse fun _ =>
        (fireFirst change body).map (.letIn decls)
    | .caseOf scrutinee arms =>
      ((fireFirst change scrutinee).map (.caseOf · arms)).orElse fun _ =>
        (fireFirstOfArms change arms).map (.caseOf scrutinee)

/-- Makes a change at the first place in a list of expressions. -/
def fireFirstOf (change : Expr → Attempt Expr) : List Expr → Attempt (List Expr)
  | [] => .ok none
  | e :: es =>
    ((fireFirst change e).map (· :: es)).orElse fun _ =>
      (fireFirstOf change es).map (e :: ·)

/-- Makes a change at the first place in the right-hand sides of a block. -/
def fireFirstOfDecls (change : Expr → Attempt Expr) :
    List (Decl Expr) → Attempt (List (Decl Expr))
  | [] => .ok none
  | .clause name params body :: ds =>
    ((fireFirst change body).map (.clause name params · :: ds)).orElse fun _ =>
      (fireFirstOfDecls change ds).map (.clause name params body :: ·)
  | .value pattern body :: ds =>
    ((fireFirst change body).map (.value pattern · :: ds)).orElse fun _ =>
      (fireFirstOfDecls change ds).map (.value pattern body :: ·)
  | .data decl :: ds => (fireFirstOfDecls change ds).map (.data decl :: ·)

/-- Makes a change at the first place in the arms of a case. -/
def fireFirstOfArms (change : Expr → Attempt Expr) :
    List (Arm Expr) → Attempt (List (Arm Expr))
  | [] => .ok none
  | ⟨pattern, body⟩ :: arms =>
    ((fireFirst change body).map (⟨pattern, ·⟩ :: arms)).orElse fun _ =>
      (fireFirstOfArms change arms).map (⟨pattern, body⟩ :: ·)

end

/-! ## Weight -/

/-- An attempt whose result, if there is one, has a property. -/
def Attempt.Ensures {α : Type} (property : α → Prop) (attempt : Attempt α) : Prop :=
  ∀ a supply, attempt = .ok (some (a, supply)) → property a

namespace Attempt.Ensures

variable {α β : Type} {property : α → Prop}

theorem none : Attempt.Ensures property (.ok Option.none) := by
  intro a supply h
  simp at h

theorem orElse {first : Attempt α} {second : Unit → Attempt α} (h₁ : Ensures property first)
    (h₂ : Ensures property (second ())) : Ensures property (first.orElse second) := by
  unfold Attempt.orElse
  split
  · exact h₂
  · exact h₁

theorem map {f : α → β} {property' : β → Prop} {attempt : Attempt α}
    (h : Ensures property attempt) (hf : ∀ a, property a → property' (f a)) :
    Ensures property' (attempt.map f) := by
  intro b supply hb
  match attempt with
  | .error _ => simp [Attempt.map, Except.map] at hb
  | .ok Option.none => simp [Attempt.map, Except.map] at hb
  | .ok (some (a, supply)) =>
    simp only [Attempt.map, Except.map, Option.map_some, Except.ok.injEq, Option.some.injEq,
      Prod.mk.injEq] at hb
    obtain ⟨rfl, -⟩ := hb
    exact hf a (h a supply rfl)

end Attempt.Ensures

/-- An attempt at changing an expression that lowers its weight. -/
abbrev Attempt.Lowers (e : Expr) (attempt : Attempt Expr) : Prop :=
  attempt.Ensures fun e' => e'.weight < e.weight

section Weight

variable {change : Expr → Attempt Expr}

mutual

/-- A change that lowers the weight of what it is made to lowers that of every expression around
it. -/
theorem weight_fireFirst_lt (hchange : ∀ e, (change e).Lowers e) (e : Expr) :
    (fireFirst change e).Lowers e := by
  rw [fireFirst.eq_def]
  refine .orElse (hchange e) ?_
  match e with
  | .var _ | .lit _ | .con _ | .prim _ => exact .none
  | .app func args =>
    refine .orElse (.map (weight_fireFirst_lt hchange func) ?_)
      (.map (weight_fireFirstOf_lt hchange args) ?_)
      <;> intro _ h <;> simp only [Expr.weight] <;> omega
  | .tuple elements =>
    refine .map (weight_fireFirstOf_lt hchange elements) fun _ h => ?_
    simpa only [Expr.weight]
  | .lam params body =>
    refine .map (weight_fireFirst_lt hchange body) fun _ h => ?_
    simp only [Expr.weight]
    omega
  | .cond condition positive negative =>
    refine .orElse (.map (weight_fireFirst_lt hchange condition) ?_)
      (.orElse (.map (weight_fireFirst_lt hchange positive) ?_)
        (.map (weight_fireFirst_lt hchange negative) ?_))
      <;> intro _ h <;> simp only [Expr.weight] <;> omega
  | .letIn decls body =>
    refine .orElse (.map (weight_fireFirstOfDecls_lt hchange decls) ?_)
      (.map (weight_fireFirst_lt hchange body) ?_)
      <;> intro _ h <;> simp only [Expr.weight] <;> omega
  | .caseOf scrutinee arms =>
    refine .orElse (.map (weight_fireFirst_lt hchange scrutinee) ?_)
      (.map (weight_fireFirstOfArms_lt hchange arms) ?_)
      <;> intro _ h <;> simp only [Expr.weight] <;> omega

/-- The same for a list of expressions. -/
theorem weight_fireFirstOf_lt (hchange : ∀ e, (change e).Lowers e) (es : List Expr) :
    (fireFirstOf change es).Ensures fun es' => Expr.weightList es' < Expr.weightList es := by
  match es with
  | [] => exact .none
  | e :: es =>
    rw [fireFirstOf]
    refine .orElse (.map (weight_fireFirst_lt hchange e) ?_)
      (.map (weight_fireFirstOf_lt hchange es) ?_)
      <;> intro _ h <;> simp only [Expr.weightList] <;> omega

/-- The same for a block of declarations, whose length stays. -/
theorem weight_fireFirstOfDecls_lt (hchange : ∀ e, (change e).Lowers e)
    (ds : List (Decl Expr)) :
    (fireFirstOfDecls change ds).Ensures fun ds' =>
      ds'.length = ds.length ∧ Expr.weightDecls ds' < Expr.weightDecls ds := by
  match ds with
  | [] => exact .none
  | .clause _ params body :: ds =>
    rw [fireFirstOfDecls]
    refine .orElse (.map (weight_fireFirst_lt hchange body) ?_)
      (.map (weight_fireFirstOfDecls_lt hchange ds) ?_)
    · intro _ h
      refine ⟨rfl, ?_⟩
      simp only [Expr.weightDecls]
      omega
    · intro _ ⟨hlength, h⟩
      have := Nat.mul_lt_mul_of_pos_left h (show 0 < 1 + (Pattern.tuple params).tests by omega)
      simp only [Expr.weightDecls, List.length_cons]
      omega
  | .value _ body :: ds =>
    rw [fireFirstOfDecls]
    refine .orElse (.map (weight_fireFirst_lt hchange body) fun _ h => ⟨rfl, ?_⟩)
      (.map (weight_fireFirstOfDecls_lt hchange ds) fun _ h => ⟨by simp [h.1], ?_⟩)
      <;> simp only [Expr.weightDecls] <;> omega
  | .data _ :: ds =>
    rw [fireFirstOfDecls]
    refine .map (weight_fireFirstOfDecls_lt hchange ds) fun _ h => ?_
    simp only [Expr.weightDecls, List.length_cons]
    omega

/-- The same for the arms of a case. -/
theorem weight_fireFirstOfArms_lt (hchange : ∀ e, (change e).Lowers e)
    (arms : List (Arm Expr)) :
    (fireFirstOfArms change arms).Ensures fun arms' =>
      Expr.weightArms arms' < Expr.weightArms arms := by
  match arms with
  | [] => exact .none
  | ⟨pattern, body⟩ :: arms =>
    rw [fireFirstOfArms]
    refine .orElse (.map (weight_fireFirst_lt hchange body) ?_)
      (.map (weight_fireFirstOfArms_lt hchange arms) ?_)
    · intro _ h
      simp only [Expr.weightArms]
      omega
    · intro _ h
      have := Nat.mul_lt_mul_of_pos_left h (show 0 < 1 + pattern.tests by omega)
      simp only [Expr.weightArms]
      omega

end

end Weight

/-- A rule that fires at the first place where it can lowers the weight. -/
theorem weight_lt_of_fireFirst {options : SimplifyOptions} {rule : Rule}
    {supply supply' : FreshSupply} {e e' : Expr}
    (h : fireFirst (rule.fire options supply) e = .ok (some (e', supply'))) :
    e'.weight < e.weight :=
  weight_fireFirst_lt (fun _ _ _ h => Rule.weight_fire_lt h) e e' supply' h

/-! ## Rounds -/

/-- What a sequence of changes comes to: the rules that fired, and the expression with the fresh
variables left, or the error that ended it. -/
structure Run where
  /-- The rules that fired, in order. -/
  fired : List Rule
  /-- The expression and the supply at the end. -/
  result : Except ClauseError (Expr × FreshSupply)

namespace Run

/-- A run in which more rules have fired before. -/
def after (fired : List Rule) (run : Run) : Run := { run with fired := fired ++ run.fired }

/-- How often a rule fired. -/
def count (run : Run) (rule : Rule) : Nat := run.fired.countP (· = rule)

end Run

/-- Tries each rule once, in order, at the first place where it fires. -/
def round (options : SimplifyOptions) : List Rule → FreshSupply → Expr → Run
  | [], supply, e => ⟨[], .ok (e, supply)⟩
  | rule :: rules, supply, e =>
    match fireFirst (rule.fire options supply) e with
    | .error error => ⟨[], .error error⟩
    | .ok none => round options rules supply e
    | .ok (some (e, supply)) => (round options rules supply e).after [rule]

/-- A round never raises the weight, and lowers it if a rule fires. -/
theorem weight_add_length_fired_le {options : SimplifyOptions} {rules : List Rule}
    {supply supply' : FreshSupply} {e e' : Expr}
    (h : (round options rules supply e).result = .ok (e', supply')) :
    e'.weight + (round options rules supply e).fired.length ≤ e.weight := by
  induction rules generalizing supply e with
  | nil =>
    simp only [round, Except.ok.injEq, Prod.mk.injEq] at h
    simp [round, h.1]
  | cons rule rules ih =>
    rw [round.eq_def] at h ⊢
    simp only at h ⊢
    split at h
    · simp at h
    · exact ih h
    · next e₁ supply₁ heq =>
      have hlt := weight_lt_of_fireFirst heq
      have := ih h
      simp only [Run.after, List.length_append, List.length_cons, List.length_nil]
      omega

/-- Makes rounds until one changes nothing. -/
def toFixpoint (options : SimplifyOptions) (rules : List Rule) (supply : FreshSupply) (e : Expr) :
    Run :=
  match _hround : round options rules supply e with
  | ⟨fired, .error error⟩ => ⟨fired, .error error⟩
  | ⟨[], .ok (e', supply')⟩ => ⟨[], .ok (e', supply')⟩
  | ⟨rule :: fired, .ok (e', supply')⟩ =>
    (toFixpoint options rules supply' e').after (rule :: fired)
termination_by e.weight
decreasing_by
  have := weight_add_length_fired_le (congrArg Run.result _hround)
  rw [_hround, List.length_cons] at this
  omega

/-! ## Replays -/

/-- The state after a rule is tried at the first place where it fires. -/
def stateAfter (options : SimplifyOptions) (state : Expr × FreshSupply) (rule : Rule) :
    Expr × FreshSupply :=
  match fireFirst (rule.fire options state.2) state.1 with
  | .ok (some state) => state
  | _ => state

/-- The state that some rules lead to, one after the other. The rules that fire in a run lead to the
state in which the run ends, also if it ends with an error. -/
def replay (options : SimplifyOptions) (rules : List Rule) (state : Expr × FreshSupply) :
    Expr × FreshSupply :=
  rules.foldl (stateAfter options) state

end Clausal
