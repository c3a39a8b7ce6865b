import Clausal.Proofs.Simplification.Passes

/-!
# The common fixpoint of all rules

Each pass leaves an expression in which its own rules have nothing to do, and no later pass brings
something back. Clauses are only ever fused, and of what the later rules build, every block binds
one value. So the blocks that clause fusion and group nesting leave make two grammars that the
passes after them keep to, also around blocks that declare data types.

## Main results

* `Grammar.admits_unclaused_iff`, `Grammar.admits_settled_iff`: the two grammars are those where the
  rules about blocks have nothing to do;
* `Program.elaborate_idle`: no rule has anything to do in what the passes leave.
-/

namespace Clausal

variable {options : SimplifyOptions}

/-! ## Blocks that are left -/

namespace Grammar

/-- Expressions without clauses. -/
def unclaused : Grammar where
  lambda _ := True
  block decls := decls.filterMap Decl.arity? = []
  caseOf := True

/-- The same without blocks of several values. -/
def settled : Grammar where
  lambda _ := True
  block decls := decls.filterMap Decl.arity? = []
    ∧ ¬ (2 ≤ decls.length ∧ ∀ decl ∈ decls, decl.value?.isSome = true)
  caseOf := True

theorem elaborable_unclaused : unclaused.Elaborable where
  lambda_var _ := trivial
  lambda_single _ _ _ _ := trivial
  caseOf_of_lambda _ _ _ := trivial
  block_var _ := rfl

theorem elaborable_settled : settled.Elaborable where
  lambda_var _ := trivial
  lambda_single _ _ _ _ := trivial
  caseOf_of_lambda _ _ _ := trivial
  block_var _ := ⟨rfl, fun h => Nat.not_succ_le_self 1 h.1⟩

theorem nestable_unclaused : unclaused.Nestable fun _ => True where
  bound_of_block _ _ _ _ := trivial
  block_bound _ _ := rfl
  bound_tuple _ _ := trivial

theorem filterMap_arity?_outline (decls : List (Decl Expr)) :
    (decls.map Decl.outline).filterMap Decl.arity? = decls.filterMap Decl.arity? := by
  rw [List.filterMap_map]
  exact List.filterMap_congr fun decl _ => decl.arity?_outline

/-- An expression has no clauses at its first node just if clause fusion has nothing to do there. -/
theorem admits_unclaused_iff {e : Expr} : unclaused.Admits e ↔ Rule.clauseFusion.Idle e := by
  cases e with
  | letIn decls body =>
    simp only [Admits, unclaused, filterMap_arity?_outline, Rule.Idle, Rule.fire,
      Attempt.map_eq_none, fuseClauses_eq_none_iff]
    exact ⟨fun h _ _ => h, fun h => h ⟨.validate, false⟩ .initial⟩
  | _ => exact iff_of_true trivial fun _ _ => rfl

/-- An expression has a block of several values at its first node just if group nesting has
something to do there. -/
theorem admits_settled_iff {e : Expr} :
    settled.Admits e ↔ unclaused.Admits e ∧ Rule.groupNesting.Idle e := by
  cases e with
  | letIn decls body =>
    have hvalues : (∀ decl ∈ decls.map Decl.outline, decl.value?.isSome = true)
        ↔ (decls.all fun decl => decl.value?.isSome) = true := by
      rw [List.forall_mem_map, List.all_eq_true]
      refine forall₂_congr fun decl _ => ?_
      cases decl <;> exact Iff.rfl
    simp only [Admits, settled, unclaused, hvalues, List.length_map, Rule.Idle, Rule.fire,
      nestGroups?, Bool.and_eq_true, decide_eq_true_eq]
    refine and_congr_right fun _ => ⟨fun h _ _ => by rw [if_neg h]; rfl, fun h hmany => ?_⟩
    have hnone := h ⟨.validate, false⟩ .initial
    rw [if_pos hmany] at hnone
    cases hnone
  | var _ | lit _ | con _ | prim _ | app _ _ | tuple _ | lam _ _ | cond _ _ _ | caseOf _ _ =>
    exact iff_of_true trivial ⟨trivial, fun _ _ => rfl⟩

end Grammar

/-! ## Passes -/

section Runs

variable {pass : Pass} {passes : List Pass} {supply : FreshSupply} {e e' : Expr}

/-- Passes that end without an error begin with one that does. -/
theorem exists_of_runPasses_cons_eq_ok
    (h : (runPasses options (pass :: passes) supply e).result = .ok e') :
    ∃ e₁ supply₁, (toFixpoint options pass.rules supply e).result = .ok (e₁, supply₁)
      ∧ (runPasses options passes supply₁ e₁).result = .ok e' := by
  cases hresult : (toFixpoint options pass.rules supply e).result with
  | error error =>
    rw [(runPasses_cons_of_error hresult).2] at h
    cases h
  | ok after =>
    rw [(runPasses_cons_of_ok hresult).2] at h
    exact ⟨after.1, after.2, rfl, h⟩

/-- No rule has anything to do in what the passes leave. -/
theorem idle_of_runPasses_eq_ok (h : (runPasses options Pass.all supply e).result = .ok e') :
    ∀ rule : Rule, e'.Everywhere rule.Idle := by
  obtain ⟨e₁, supply₁, hfusion, h⟩ := exists_of_runPasses_cons_eq_ok h
  obtain ⟨e₂, supply₂, helaboration, h⟩ := exists_of_runPasses_cons_eq_ok h
  obtain ⟨e₃, supply₃, hnesting, h⟩ := exists_of_runPasses_cons_eq_ok h
  obtain ⟨e₄, supply₄, hreelaboration, h⟩ := exists_of_runPasses_cons_eq_ok h
  obtain rfl : e₄ = e' := Except.ok.inj h
  -- no clauses are left, and elaboration makes none
  have h₁ : Grammar.unclaused.Generates e₁ :=
    ((toFixpoint_eq_ok hfusion).2 _ List.mem_cons_self).imp fun _ =>
      Grammar.admits_unclaused_iff.2
  have h₂ : Grammar.unclaused.Generates e₂ :=
    h₁.of_fires Grammar.elaborable_unclaused.closed (toFixpoint_eq_ok helaboration).1
  -- group nesting keeps that, and splits every block of several values
  have h₃ : Grammar.settled.Generates e₃ := by
    obtain ⟨hsteps, hidle⟩ := toFixpoint_eq_ok hnesting
    have hkept : Grammar.unclaused.Generates e₃ :=
      h₂.of_fires (List.forall_mem_singleton.2 Grammar.nestable_unclaused.closed) hsteps
    exact (hkept.and (hidle _ List.mem_cons_self)).imp fun _ => Grammar.admits_settled_iff.2
  -- the last pass keeps both, and ends where its own rules have nothing to do
  obtain ⟨hsteps, hidle⟩ := toFixpoint_eq_ok hreelaboration
  have h₄ : Grammar.settled.Generates e₄ :=
    h₃.of_fires Grammar.elaborable_settled.closed hsteps
  intro rule
  cases rule with
  | clauseFusion =>
    exact h₄.imp fun _ hc => Grammar.admits_unclaused_iff.1 (Grammar.admits_settled_iff.1 hc).1
  | groupNesting => exact h₄.imp fun _ hc => (Grammar.admits_settled_iff.1 hc).2
  | currying | patternLambda | caseElimination | letTupleFlattening =>
    exact hidle _ (by decide)

end Runs

namespace Program

variable {p : Program} {e e' : Expr}

/-- What the passes leave is a common fixpoint of all rules. Each of them is tried in vain
everywhere, with any options and any supply, and a run of any of them ends at once with the
expression as it was. -/
theorem elaborate_idle (h : (p.elaborate options e).result = .ok e')
    (options' : SimplifyOptions) (supply : FreshSupply) :
    (∀ rule : Rule, fireFirst (rule.fire options' supply) e' = .ok none)
      ∧ ∀ rules : List Rule, round options' rules supply e' = ⟨[], .ok (e', supply)⟩
        ∧ toFixpoint options' rules supply e' = ⟨[], .ok (e', supply)⟩ := by
  have hidle := idle_of_runPasses_eq_ok h
  have hround (rules : List Rule) : round options' rules supply e' = ⟨[], .ok (e', supply)⟩ :=
    round_eq_self_iff.2 fun rule _ => hidle rule
  exact ⟨fun rule => Rule.fireFirst_eq_none_iff_idle.2 (hidle rule),
    fun rules => ⟨hround rules, toFixpoint_of_round_nil (hround rules)⟩⟩

/-- Two functions that call each other, the first of two clauses. -/
def parityClauses : Program :=
  ⟨[.clause "even" [.lit (.int 0)] (.lit (.bool true)),
    .clause "odd" [.tuple [.var "n"]] (.app (.var "even") [.var "n"]),
    .clause "even" [.var "n"] (.app (.var "odd") [.var "n"])]⟩

/-- An expression with a block of a data type and of a function that uses it. -/
def boxed : Expr :=
  .letIn [.data ⟨"Box", [], [⟨"Box", [.con "Bool" []]⟩]⟩,
      .clause "box" [.wildcard, .var "b"] (.app (.con "Box") [.var "b"])]
    (.app (.var "box") [.lit (.int 1), .app (.var "even") [.lit (.int 2)]])

theorem elaborate_idle_parity :
    ∃ e', (parityClauses.elaborate {} boxed).result = .ok e'
      ∧ ∀ rule : Rule, fireFirst (rule.fire {} .initial) e' = .ok none := by
  obtain ⟨e', h⟩ : ∃ e', (parityClauses.elaborate {} boxed).result = .ok e' := ⟨_, by cbv⟩
  exact ⟨e', h, (elaborate_idle h {} .initial).1⟩

end Program

end Clausal
