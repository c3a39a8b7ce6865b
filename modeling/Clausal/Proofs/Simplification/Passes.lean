import Clausal.Proofs.Simplification.Stages

/-!
# From pass to pass

Group nesting keeps to the grammar of elaborated expressions, and with it every pass is known to
lead from one grammar to the next. What the rule needs of a grammar is `Grammar.Nestable`. A
sequence of passes ends without an error unless the check of clauses fails, and each snapshot of it
is a fixpoint of its pass.

## Main results

* `Pass.toFixpoint_generates`: each pass leads from its grammar to the next;
* `idle_of_mem_snapshots`: no rule of a pass has anything to do in what the pass leaves;
* `runPasses_eq_error`: passes fail only at clause fusion, when clauses are checked.
-/

namespace Clausal

variable {options : SimplifyOptions} {g : Grammar}

/-! ## Group nesting -/

namespace Grammar

/-- The right-hand side of a group is in the grammar if those of its members are. -/
theorem generates_groupDecl {group : List (Pattern × Expr)}
    (h : ∀ binding ∈ group, g.Generates binding.2) :
    ∀ value ∈ Decl.bodies [groupDecl group], g.Generates value := by
  rw [groupDecl.eq_def]
  split
  · rw [Decl.bodies_value, Decl.bodies_nil, List.forall_mem_singleton]
    exact h _ List.mem_cons_self
  · rw [Decl.bodies_value, Decl.bodies_nil, List.forall_mem_singleton, generates_tuple,
      List.forall_mem_map]
    exact h

/-- What a grammar needs for group nesting to keep to it: that there are blocks of one value, bound
by any pattern that a block binds a value by, or by a tuple of such patterns. -/
structure Nestable (g : Grammar) (bound : Pattern → Prop) : Prop where
  /-- Blocks bind values by patterns of the kind. -/
  bound_of_block : ∀ decls, g.block decls → ∀ pattern, .value pattern () ∈ decls → bound pattern
  /-- There are blocks of one value for each pattern of the kind. -/
  block_bound : ∀ pattern, bound pattern → g.block [.value pattern ()]
  /-- Tuples of patterns of the kind are of the kind. -/
  bound_tuple : ∀ patterns, (∀ pattern ∈ patterns, bound pattern) → bound (.tuple patterns)

namespace Nestable

variable {bound : Pattern → Prop} (hg : g.Nestable bound)

include hg

/-- A group of bindings is bound at once in a block of the grammar. -/
theorem block_groupDecl {group : List (Pattern × Expr)}
    (h : ∀ binding ∈ group, bound binding.1) : g.block ([groupDecl group].map Decl.outline) := by
  rw [groupDecl.eq_def]
  split
  · exact hg.block_bound _ (h _ List.mem_cons_self)
  · refine hg.block_bound _ (hg.bound_tuple _ ?_)
    rw [List.forall_mem_map]
    exact h

/-- A nest of blocks is built within the grammar. -/
theorem generates_nestBlocks {body : Expr} (hbody : g.Generates body)
    (groups : List (List Nat)) {left : List ((Pattern × Expr) × Nat)}
    (hleft : ∀ binding ∈ left, bound binding.1.1 ∧ g.Generates binding.1.2) :
    g.Generates (nestBlocks body groups left) := by
  induction groups generalizing left with
  | nil => exact hbody
  | cons group groups ih =>
    rw [nestBlocks, List.partition_eq_filter_filter]
    dsimp only
    have hinner : g.Generates (nestBlocks body groups
        (left.filter (not ∘ fun binding => group.contains binding.2))) :=
      ih fun binding hbinding => hleft binding (List.mem_of_mem_filter hbinding)
    have hmembers : ∀ binding ∈ (left.filter fun binding => group.contains binding.2).map Prod.fst,
        bound binding.1 ∧ g.Generates binding.2 := by
      rw [List.forall_mem_map]
      exact fun binding hbinding => hleft binding (List.mem_of_mem_filter hbinding)
    split
    -- a group without members left makes no block
    · exact hinner
    · refine generates_letIn.2 ⟨hg.block_groupDecl ?_, generates_groupDecl ?_, hinner⟩
      · exact fun binding hbinding => (hmembers binding hbinding).1
      · exact fun binding hbinding => (hmembers binding hbinding).2

/-- Group nesting keeps to the grammar. -/
theorem closed : g.Closed options .groupNesting := by
  intro supply supply' e e' h hfire
  simp only [Rule.fire, Except.ok.injEq, Option.map_eq_some_iff, Prod.mk.injEq] at hfire
  obtain ⟨_, hnest, rfl, -⟩ := hfire
  unfold nestGroups? at hnest
  split at hnest
  · next decls body =>
    split at hnest
    · cases hnest
      obtain ⟨hblock, hbodies, hbody⟩ := generates_letIn.1 h
      refine hg.generates_nestBlocks hbody _ fun binding hbinding => ?_
      obtain ⟨decl, hdecl, hvalue⟩ :=
        List.mem_filterMap.1 (List.fst_mem_of_mem_zipIdx hbinding)
      cases decl with
      | value pattern value =>
        rw [← (Option.some.inj hvalue : (pattern, value) = binding.1)]
        exact ⟨hg.bound_of_block _ hblock pattern (List.mem_map.2 ⟨_, hdecl, rfl⟩),
          hbodies _ (List.mem_filterMap.2 ⟨_, hdecl, rfl⟩)⟩
      | clause _ _ _ | data _ => cases hvalue
    · cases hnest
  · cases hnest

end Nestable

theorem nestable_elaborated : elaborated.Nestable fun pattern => pattern.isIrrefutable = true where
  bound_of_block _ h _ hpattern := h _ hpattern
  block_bound _ h := List.forall_mem_singleton.2 h
  bound_tuple patterns h := by
    change Pattern.areIrrefutable patterns = true
    rw [Pattern.areIrrefutable_eq_all, List.all_eq_true]
    exact h

/-- Where there is nothing to nest, a block has at most one declaration. -/
theorem admits_nested {e : Expr} (h : elaborated.Admits e) (hidle : Rule.groupNesting.Idle e) :
    nested.Admits e := by
  cases e with
  | lam _ _ | caseOf _ _ => exact h
  | var _ | lit _ | con _ | prim _ | app _ _ | tuple _ | cond _ _ _ => trivial
  | letIn decls body =>
    refine ⟨?_, h⟩
    have hvalues : (decls.all fun decl => decl.value?.isSome) = true := by
      simp only [Admits, elaborated, List.forall_mem_map, Decl.bindsValue_outline] at h
      refine List.all_eq_true.2 fun decl hdecl => ?_
      have hdeclBinds := h decl hdecl
      cases decl with
      | value _ _ => rfl
      | clause _ _ _ | data _ => exact hdeclBinds.elim
    by_contra hmany
    rw [List.length_map, Nat.not_le] at hmany
    have hnone := hidle ⟨.validate, false⟩ .initial
    simp only [Rule.fire, nestGroups?, hvalues, Bool.and_true, decide_eq_true_eq] at hnone
    rw [if_pos (show 2 ≤ decls.length from hmany)] at hnone
    cases hnone

end Grammar

/-! ## Passes -/

namespace Pass

/-- The grammar that a pass starts from, for an expression that compiles. -/
def before (options : SimplifyOptions) : Pass → Grammar
  | clauseFusion => .source options
  | elaboration => .fused
  | groupNesting => .elaborated
  | reelaboration => .nested

/-- The grammar of what a pass leaves. -/
def after : Pass → Grammar
  | clauseFusion => .fused
  | elaboration => .elaborated
  | groupNesting => .nested
  | reelaboration => .core

theorem closed_before (pass : Pass) :
    ∀ rule ∈ pass.rules, (pass.before options).Closed options rule := by
  cases pass with
  | clauseFusion => exact List.forall_mem_singleton.2 Grammar.closed_source
  | elaboration => exact Grammar.elaborable_fused.closed
  | groupNesting => exact List.forall_mem_singleton.2 Grammar.nestable_elaborated.closed
  | reelaboration => exact Grammar.elaborable_nested.closed

theorem safe_before (pass : Pass) :
    ∀ rule ∈ pass.rules, (pass.before options).Safe options rule := by
  cases pass with
  | clauseFusion => exact List.forall_mem_singleton.2 Grammar.safe_source
  | elaboration | groupNesting | reelaboration =>
    refine fun rule hrule => Grammar.safe_of_ne ?_
    rintro rfl
    revert hrule
    decide

theorem admits_after {pass : Pass} {e : Expr} (h : (pass.before options).Admits e)
    (hidle : ∀ rule ∈ pass.rules, rule.Idle e) : pass.after.Admits e := by
  cases pass with
  | clauseFusion => exact Grammar.admits_fused h (hidle _ List.mem_cons_self)
  | elaboration => exact Grammar.admits_elaborated h hidle
  | groupNesting => exact Grammar.admits_nested h (hidle _ List.mem_cons_self)
  | reelaboration => exact Grammar.admits_core h hidle

/-- Each pass leads from its grammar to the next, without an error. -/
theorem toFixpoint_generates (pass : Pass) {e : Expr} (supply : FreshSupply)
    (h : (pass.before options).Generates e) :
    ∃ e' supply', (toFixpoint options pass.rules supply e).result = .ok (e', supply')
      ∧ pass.after.Generates e' :=
  Grammar.toFixpoint_generates pass.closed_before pass.safe_before (fun _ => admits_after) supply h

end Pass

section Runs

variable {pass : Pass} {passes : List Pass} {supply supply' : FreshSupply} {e e' : Expr}

theorem runPasses_cons_of_ok
    (h : (toFixpoint options pass.rules supply e).result = .ok (e', supply')) :
    (runPasses options (pass :: passes) supply e).snapshots
        = (pass, e') :: (runPasses options passes supply' e').snapshots
      ∧ (runPasses options (pass :: passes) supply e).result
        = (runPasses options passes supply' e').result := by
  rw [runPasses]
  dsimp only
  rw [h]
  exact ⟨rfl, rfl⟩

theorem runPasses_cons_of_error {error : ClauseError}
    (h : (toFixpoint options pass.rules supply e).result = .error error) :
    (runPasses options (pass :: passes) supply e).snapshots = []
      ∧ (runPasses options (pass :: passes) supply e).result = .error error := by
  rw [runPasses]
  dsimp only
  rw [h]
  exact ⟨rfl, rfl⟩

/-- No rule of a pass has anything to do in what the pass leaves. -/
theorem idle_of_mem_snapshots (h : (pass, e') ∈ (runPasses options passes supply e).snapshots) :
    ∀ rule ∈ pass.rules, e'.Everywhere rule.Idle := by
  induction passes generalizing supply e with
  | nil => cases h
  | cons first passes ih =>
    cases hresult : (toFixpoint options first.rules supply e).result with
    | error error =>
      rw [(runPasses_cons_of_error hresult).1] at h
      cases h
    | ok after =>
      rw [(runPasses_cons_of_ok hresult).1, List.mem_cons] at h
      rcases h with h | h
      · cases h
        exact (toFixpoint_eq_ok hresult).2
      · exact ih h

/-- Passes that end without an error leave a snapshot each. -/
theorem snapshots_of_runPasses_eq_ok (h : (runPasses options passes supply e).result = .ok e') :
    (runPasses options passes supply e).snapshots.map Prod.fst = passes := by
  induction passes generalizing supply e with
  | nil => rfl
  | cons first passes ih =>
    cases hresult : (toFixpoint options first.rules supply e).result with
    | error error =>
      rw [(runPasses_cons_of_error hresult).2] at h
      cases h
    | ok after =>
      rw [(runPasses_cons_of_ok hresult).2] at h
      rw [(runPasses_cons_of_ok hresult).1, List.map_cons, ih h]

/-- Passes fail only at clause fusion, when clauses are checked. -/
theorem runPasses_eq_error {error : ClauseError}
    (h : (runPasses options passes supply e).result = .error error) :
    options.arityCheck = .validate ∧ ∃ done pass left, passes = done ++ pass :: left
      ∧ .clauseFusion ∈ pass.rules
      ∧ (runPasses options passes supply e).snapshots.map Prod.fst = done := by
  induction passes generalizing supply e with
  | nil => cases h
  | cons first passes ih =>
    cases hresult : (toFixpoint options first.rules supply e).result with
    | error error' =>
      -- the pass that fails is the first one, so nothing is done before it
      obtain ⟨state, -, rule, hrule, hfail⟩ := toFixpoint_eq_error hresult
      obtain ⟨rfl, hvalidate⟩ := Rule.fireFirst_eq_error hfail
      refine ⟨hvalidate, [], first, passes, rfl, hrule, ?_⟩
      rw [(runPasses_cons_of_error hresult).1, List.map_nil]
    | ok after =>
      rw [(runPasses_cons_of_ok hresult).2] at h
      obtain ⟨hvalidate, done, pass, left, rfl, hpass, hdone⟩ := ih h
      refine ⟨hvalidate, first :: done, pass, left, rfl, hpass, ?_⟩
      rw [(runPasses_cons_of_ok hresult).1, List.map_cons, hdone]

/-- The passes take an expression that compiles to a core expression. -/
theorem runPasses_generates (supply : FreshSupply) (h : (Grammar.source options).Generates e) :
    ∃ e', (runPasses options Pass.all supply e).result = .ok e' ∧ Grammar.core.Generates e' := by
  obtain ⟨e₁, supply₁, hfusion, h₁⟩ := Pass.clauseFusion.toFixpoint_generates supply h
  obtain ⟨e₂, supply₂, helaboration, h₂⟩ := Pass.elaboration.toFixpoint_generates supply₁ h₁
  obtain ⟨e₃, supply₃, hnesting, h₃⟩ := Pass.groupNesting.toFixpoint_generates supply₂ h₂
  obtain ⟨e₄, supply₄, hreelaboration, h₄⟩ := Pass.reelaboration.toFixpoint_generates supply₃ h₃
  refine ⟨e₄, ?_, h₄⟩
  rw [Pass.all, (runPasses_cons_of_ok hfusion).2, (runPasses_cons_of_ok helaboration).2,
    (runPasses_cons_of_ok hnesting).2, (runPasses_cons_of_ok hreelaboration).2, runPasses]

end Runs

end Clausal
