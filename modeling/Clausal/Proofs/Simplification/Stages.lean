import Clausal.Compilation
import Clausal.Proofs.Simplification.Fixpoint
import Clausal.Proofs.Simplification.Grammar

/-!
# The grammars between the passes

Each pass keeps to the grammar of the expressions that it starts from, and where none of its rules
has anything left to do, the expression is in the grammar that the next pass starts from. This
module is about clause fusion and elaboration.

The two elaboration passes start from different grammars. What their rules need is stated once,
as `Grammar.Elaborable`.

## Main results

* `Grammar.toFixpoint_generates`: a run of rules leads from one grammar to another;
* `Grammar.closed_source`: clause fusion keeps to the expressions that compile;
* `Grammar.Elaborable.closed`: the rules of elaboration keep to an elaborable grammar.
-/

namespace Clausal

variable {options : SimplifyOptions} {rule : Rule} {rules : List Rule} {g g' : Grammar}

/-! ## Runs within a grammar -/

namespace Grammar

/-- A rule leads from expressions of a grammar to expressions of it. -/
def Closed (g : Grammar) (options : SimplifyOptions) (rule : Rule) : Prop :=
  ∀ ⦃supply supply' : FreshSupply⦄ ⦃e e' : Expr⦄, g.Generates e →
    rule.fire options supply e = .ok (some (e', supply')) → g.Generates e'

/-- A rule never fails at an expression of a grammar. -/
def Safe (g : Grammar) (options : SimplifyOptions) (rule : Rule) : Prop :=
  ∀ ⦃supply : FreshSupply⦄ ⦃e : Expr⦄ ⦃error : ClauseError⦄, g.Generates e →
    rule.fire options supply e ≠ .error error

/-- An expression stays in a grammar if the rules keep to it. -/
theorem Generates.of_fires (hclosed : ∀ rule ∈ rules, g.Closed options rule)
    {before after : Expr × FreshSupply} (h : g.Generates before.1)
    (hsteps : Relation.ReflTransGen (Fires options rules) before after) :
    g.Generates after.1 := by
  induction hsteps with
  | refl => exact h
  | tail _ hfire ih =>
    obtain ⟨rule, hrule, hfire⟩ := hfire
    exact ih.of_rewrites (fun _ _ hc hroot => hclosed rule hrule hc hroot)
      (fireFirst_rewrites hfire)

/-- What holds everywhere in an expression of a grammar if it holds of all expressions of it. -/
theorem Generates.everywhere {P : Expr → Prop} {e : Expr} (h : g.Generates e)
    (hP : ∀ c, g.Generates c → P c) : e.Everywhere P := by
  induction h with
  | intro hnode hchildren ih => exact .intro (hP _ (.intro hnode hchildren)) ih

/-- Rules that keep to a grammar and never fail there have an expression of it come to an
expression of the grammar that is left where they have nothing to do. -/
theorem toFixpoint_generates (hclosed : ∀ rule ∈ rules, g.Closed options rule)
    (hsafe : ∀ rule ∈ rules, g.Safe options rule)
    (hleft : ∀ e, g.Admits e → (∀ rule ∈ rules, rule.Idle e) → g'.Admits e)
    {e : Expr} (supply : FreshSupply) (h : g.Generates e) :
    ∃ e' supply', (toFixpoint options rules supply e).result = .ok (e', supply')
      ∧ g'.Generates e' := by
  cases hresult : (toFixpoint options rules supply e).result with
  | error error =>
    -- the firing that fails is made to an expression that is still in the grammar
    obtain ⟨state, hsteps, rule, hrule, hfail⟩ := toFixpoint_eq_error hresult
    have hstate : g.Generates state.1 := h.of_fires hclosed hsteps
    refine absurd hfail (fireFirst_ne_error (hstate.everywhere fun c hc => ?_))
    exact hsafe rule hrule hc
  | ok after =>
    obtain ⟨hsteps, hidle⟩ := toFixpoint_eq_ok hresult
    refine ⟨after.1, after.2, rfl, ?_⟩
    refine ((h.of_fires hclosed hsteps).and (Expr.everywhere_forall_mem hidle)).imp ?_
    exact fun c hc => hleft c hc.1 hc.2

end Grammar

namespace Rule

variable {supply : FreshSupply} {e : Expr} {error : ClauseError}

/-- Only the check of clauses fails. -/
theorem fire_eq_error (h : rule.fire options supply e = .error error) :
    rule = .clauseFusion ∧ options.arityCheck = .validate := by
  cases rule with
  | clauseFusion =>
    cases e with
    | letIn decls body =>
      rw [fire, Attempt.map_eq_error] at h
      exact ⟨rfl, (fuseClauses_eq_error h).1⟩
    | _ => cases h
  | currying | patternLambda | caseElimination | letTupleFlattening | groupNesting => cases h

theorem fireFirst_eq_error (h : fireFirst (rule.fire options supply) e = .error error) :
    rule = .clauseFusion ∧ options.arityCheck = .validate := by
  by_contra hnot
  exact fireFirst_ne_error (Expr.everywhere_of_forall (fun c hc => hnot (fire_eq_error hc)) e) h

end Rule

/-- Any other rule never fails. -/
theorem Grammar.safe_of_ne (h : rule ≠ .clauseFusion) : g.Safe options rule :=
  fun _ _ _ _ hfail => h (Rule.fire_eq_error hfail).1

/-! ## Grammars -/

namespace Decl

variable {β : Type}

/-- A declaration of no data type, and of a value only by an irrefutable pattern. -/
def Binds : Decl β → Prop
  | .clause _ _ _ => True
  | .value pattern _ => pattern.isIrrefutable = true
  | .data _ => False

/-- A declaration of a value by an irrefutable pattern. -/
def BindsValue : Decl β → Prop
  | .value pattern _ => pattern.isIrrefutable = true
  | _ => False

@[simp] theorem binds_outline (decl : Decl β) : decl.outline.Binds ↔ decl.Binds := by
  cases decl <;> exact Iff.rfl

@[simp] theorem bindsValue_outline (decl : Decl β) : decl.outline.BindsValue ↔ decl.BindsValue := by
  cases decl <;> exact Iff.rfl

end Decl

namespace Grammar

/-- The surface expressions that compile: every lambda has a parameter, and every block declares
no data type, values only by irrefutable patterns, and clauses that agree if they are checked. -/
def source (options : SimplifyOptions) : Grammar where
  lambda params := params ≠ []
  block decls := (∀ decl ∈ decls, decl.Binds)
    ∧ (options.arityCheck = .unchecked ∨ Decl.ClausesAgree decls)
  caseOf := True

/-- The same without clauses. -/
def fused : Grammar where
  lambda params := params ≠ []
  block decls := ∀ decl ∈ decls, decl.BindsValue
  caseOf := True

/-- Expressions without cases, with lambdas of one variable. -/
def elaborated : Grammar where
  lambda params := ∃ name, params = [.var name]
  block decls := ∀ decl ∈ decls, decl.BindsValue
  caseOf := False

/-- The same with at most one declaration in a block. -/
def nested : Grammar where
  lambda params := ∃ name, params = [.var name]
  block decls := decls.length ≤ 1 ∧ ∀ decl ∈ decls, decl.BindsValue
  caseOf := False

/-- Expressions with lambdas and blocks of one variable. -/
def core : Grammar where
  lambda params := ∃ name, params = [.var name]
  block decls := decls = [] ∨ ∃ name, decls = [.value (.var name) ()]
  caseOf := False

end Grammar

/-! ## Clause fusion -/

theorem mem_bodies_of_mem_clausesOf {name : String} {decls : List (Decl Expr)}
    {clause : List Pattern × Expr} (h : clause ∈ clausesOf name decls) :
    clause.2 ∈ Decl.bodies decls :=
  List.mem_filterMap.2 ⟨_, mem_clausesOf.1 h, rfl⟩

/-- The value of clauses is made of a lambda and a case around their right-hand sides. -/
theorem generates_fusedValue {params : List Pattern} {body : Expr} {supply : FreshSupply}
    {later : List (List Pattern × Expr)} (hlambda : ∀ params, params ≠ [] → g.lambda params)
    (hcase : g.caseOf) (hbody : g.Generates body)
    (hlater : ∀ clause ∈ later, g.Generates clause.2) :
    g.Generates (fusedValue params body later supply).1 := by
  rw [fusedValue]
  split
  · exact hbody
  · next hparams =>
    refine Grammar.generates_lam.2 ⟨hlambda _ fun hnil => hparams ?_, ?_⟩
    -- as many variables are drawn as the first clause has patterns
    · have hlength := congrArg List.length hnil
      rw [List.length_map, FreshSupply.length_drawMany] at hlength
      exact List.isEmpty_iff_length_eq_zero.2 hlength
    · refine Grammar.generates_caseOf.2 ⟨hcase, Grammar.generates_tuple.2 ?_, ?_⟩
      · rw [List.forall_mem_map]
        exact fun name _ => Grammar.generates_var name
      · rw [List.forall_mem_map, List.forall_mem_cons]
        exact ⟨hbody, hlater⟩

namespace Grammar

/-- Fusion keeps to a grammar that has cases, functions and the blocks that it leaves. -/
theorem closed_clauseFusion (hlambda : ∀ params, params ≠ [] → g.lambda params) (hcase : g.caseOf)
    (hblock : ∀ {before after : List (Decl Expr)} {name : String} {params : List Pattern}
      {body value : Expr}, g.block ((before ++ .clause name params body :: after).map Decl.outline) →
      g.block ((before ++ .value (.var name) value :: withoutClausesOf name after).map
        Decl.outline)) :
    g.Closed options .clauseFusion := by
  intro supply supply' e e' h hfire
  cases e with
  | letIn decls body =>
    rw [Rule.fire] at hfire
    obtain ⟨decls', hfuse, rfl⟩ := Attempt.map_eq_some.1 hfire
    obtain ⟨before, name, params, value, after, -, rfl, rfl, -⟩ := fuseClauses_eq_some hfuse
    obtain ⟨hdecls, hbodies, hbody⟩ := generates_letIn.1 h
    refine generates_letIn.2 ⟨hblock hdecls, ?_, hbody⟩
    simp only [Decl.bodies, List.filterMap_append, List.filterMap_cons, Decl.body?,
      List.forall_mem_append, List.forall_mem_cons] at hbodies ⊢
    refine ⟨hbodies.1, ?_, fun value hvalue => hbodies.2.2 value ?_⟩
    · refine generates_fusedValue hlambda hcase hbodies.2.1 fun clause hclause => ?_
      exact hbodies.2.2 _ (mem_bodies_of_mem_clausesOf hclause)
    · exact ((withoutClausesOf_sublist name after).filterMap Decl.body?).subset hvalue
  | _ => cases hfire

/-- The check does not fail in a grammar in which clauses agree. -/
theorem safe_clauseFusion (hblock : options.arityCheck = .validate → ∀ decls : List (Decl Expr),
      g.block (decls.map Decl.outline) → Decl.ClausesAgree decls) :
    g.Safe options .clauseFusion := by
  intro supply e error h hfail
  cases e with
  | letIn decls body =>
    rw [Rule.fire, Attempt.map_eq_error] at hfail
    obtain ⟨hvalidate, before, name, params, value, after, -, rfl, hcheck⟩ :=
      fuseClauses_eq_error hfail
    have hagree := hblock hvalidate _ (generates_letIn.1 h).1
    rw [hagree.clauseError?_eq_none] at hcheck
    cases hcheck
  | _ => cases hfail

/-- Fusion keeps to the expressions that compile. -/
theorem closed_source : (source options).Closed options .clauseFusion := by
  refine closed_clauseFusion (fun _ => id) trivial ?_
  rintro before after name params body value ⟨hbinds, hagree⟩
  -- the block keeps its other declarations and gains a value of one variable
  refine ⟨?_, ?_⟩
  · simp only [List.forall_mem_map, Decl.binds_outline, List.forall_mem_append,
      List.forall_mem_cons] at hbinds ⊢
    have hsub := withoutClausesOf_sublist name after
    exact ⟨hbinds.1, rfl, fun decl hdecl => hbinds.2.2 decl (hsub.subset hdecl)⟩
  · simp only [Decl.clausesAgree_outline] at hagree ⊢
    exact hagree.imp_right Decl.ClausesAgree.of_clause

/-- The check of clauses that agree does not fail. -/
theorem safe_source : (source options).Safe options .clauseFusion := by
  refine safe_clauseFusion fun hvalidate decls h => ?_
  rw [← Decl.clausesAgree_outline]
  exact h.2.resolve_left fun hunchecked => ArityCheck.noConfusion (hvalidate.symm.trans hunchecked)

/-- Where no clause is left to fuse, there are no clauses. -/
theorem admits_fused {e : Expr} (h : (source options).Admits e)
    (hidle : Rule.clauseFusion.Idle e) : fused.Admits e := by
  cases e with
  | letIn decls body =>
    have hnone := hidle options .initial
    rw [Rule.fire, Attempt.map_eq_none, fuseClauses_eq_none_iff, List.filterMap_eq_nil_iff] at hnone
    have hbinds : ∀ decl ∈ decls, decl.Binds := by
      simpa only [List.forall_mem_map, Decl.binds_outline] using h.1
    simp only [Admits, fused, List.forall_mem_map, Decl.bindsValue_outline]
    intro decl hdecl
    have hdeclBinds := hbinds decl hdecl
    have hdeclNone := hnone decl hdecl
    cases decl with
    | clause _ _ _ => cases hdeclNone
    | value _ _ => exact hdeclBinds
    | data _ => exact hdeclBinds
  | var _ | lit _ | con _ | prim _ | app _ _ | tuple _ | cond _ _ _ => trivial
  | lam _ _ | caseOf _ _ => exact h

/-! ## Elaboration -/

/-- What a grammar needs for the rules of elaboration to keep to it: that there are lambdas and
blocks of one variable, lambdas of each parameter alone, and cases if such a parameter is no
variable. -/
structure Elaborable (g : Grammar) : Prop where
  /-- There are lambdas of one variable. -/
  lambda_var : ∀ name, g.lambda [.var name]
  /-- There are lambdas of one parameter for the parameters of any lambda. -/
  lambda_single : ∀ params, g.lambda params → ∀ param ∈ params, g.lambda [param]
  /-- There are cases if there are lambdas of other patterns than variables. -/
  caseOf_of_lambda : ∀ param, g.lambda [param] → param.isVar = false → g.caseOf
  /-- There are blocks of one variable. -/
  block_var : ∀ name, g.block [.value (.var name) ()]

/-- A chain of matches is built within the grammar. -/
theorem generates_matchChain (hvar : ∀ name, g.lambda [.var name]) (share : Bool)
    {scrutinee : Expr} (hscrutinee : g.Generates scrutinee) (supply : FreshSupply)
    {arms : List (Arm Expr)} (harms : ∀ arm ∈ arms, g.Generates arm.body) :
    g.Generates (matchChain share scrutinee supply arms).1 := by
  induction arms with
  | nil => exact generates_prim _
  | cons arm arms ih =>
    obtain ⟨pattern, body⟩ := arm
    obtain ⟨hbody, harms⟩ := List.forall_mem_cons.1 harms
    exact Matching.generates_elaborate hvar share pattern _ hscrutinee hbody (ih harms)

/-- A function of each parameter in turn is built within the grammar. -/
theorem generates_curried {params : List Pattern} (hparams : ∀ param ∈ params, g.lambda [param])
    {body : Expr} (hbody : g.Generates body) :
    g.Generates (params.foldr (fun param body => .lam [param] body) body) := by
  induction params with
  | nil => exact hbody
  | cons param params ih =>
    obtain ⟨hparam, hparams⟩ := List.forall_mem_cons.1 hparams
    exact generates_lam.2 ⟨hparam, ih hparams⟩

namespace Elaborable

variable (hg : g.Elaborable)

include hg

theorem closed_currying : g.Closed options .currying := by
  intro supply supply' e e' h hfire
  simp only [Rule.fire, Except.ok.injEq, Option.map_eq_some_iff, Prod.mk.injEq] at hfire
  obtain ⟨_, hcurry, rfl, -⟩ := hfire
  unfold curry? at hcurry
  split at hcurry
  · cases hcurry
    obtain ⟨hlambda, hbody⟩ := generates_lam.1 h
    exact generates_curried (hg.lambda_single _ hlambda) hbody
  · cases hcurry

theorem closed_patternLambda : g.Closed options .patternLambda := by
  intro supply supply' e e' h hfire
  simp only [Rule.fire, Except.ok.injEq] at hfire
  unfold liftPattern? at hfire
  split at hfire
  · next param body =>
    split at hfire
    · cases hfire
    · next hvar =>
      cases hfire
      obtain ⟨hlambda, hbody⟩ := generates_lam.1 h
      have hcase : g.caseOf := hg.caseOf_of_lambda param hlambda (Bool.not_eq_true _ ▸ hvar)
      refine generates_lam1.2 ⟨hg.lambda_var _, generates_caseOf.2 ⟨hcase, generates_var _, ?_⟩⟩
      rw [List.forall_mem_singleton]
      exact hbody
  · cases hfire

theorem closed_caseElimination : g.Closed options .caseElimination := by
  intro supply supply' e e' h hfire
  simp only [Rule.fire, Except.ok.injEq] at hfire
  unfold expandCase? at hfire
  split at hfire
  · next scrutinee arms =>
    obtain ⟨-, hscrutinee, harms⟩ := generates_caseOf.1 h
    split at hfire
    · have hchain := generates_matchChain hg.lambda_var options.shareFallthrough hscrutinee supply
        harms
      rw [Option.some.inj hfire] at hchain
      exact hchain
    · cases hfire
      refine generates_app1.2 ⟨generates_lam1.2 ⟨hg.lambda_var _, ?_⟩, hscrutinee⟩
      exact generates_matchChain hg.lambda_var _ (generates_var _) _ harms
  · cases hfire

theorem closed_letTupleFlattening : g.Closed options .letTupleFlattening := by
  intro supply supply' e e' h hfire
  simp only [Rule.fire, Except.ok.injEq] at hfire
  unfold flattenTuple? at hfire
  split at hfire
  · cases hfire
    exact (generates_letIn.1 h).2.2
  · next pattern value body _ =>
    obtain ⟨-, hbodies, hbody⟩ := generates_letIn.1 h
    have hvalue : g.Generates value := hbodies value List.mem_cons_self
    split at hfire
    · cases hfire
    · cases hfire
      refine generates_letIn.2 ⟨hg.block_var _, ?_, ?_⟩
      · rw [Decl.bodies_value, Decl.bodies_nil, List.forall_mem_singleton]
        exact Matching.generates_bindLazily hg.lambda_var pattern (generates_var _) hvalue
      · exact Matching.generates_bindLazily hg.lambda_var pattern (generates_var _) hbody
  · cases hfire

/-- The rules of elaboration keep to the grammar. -/
theorem closed : ∀ rule ∈ Pass.elaboration.rules, g.Closed options rule := by
  simp only [Pass.rules, List.forall_mem_cons]
  exact ⟨hg.closed_currying, hg.closed_patternLambda, hg.closed_caseElimination,
    hg.closed_letTupleFlattening, fun _ hrule => absurd hrule List.not_mem_nil⟩

end Elaborable

theorem elaborable_fused : fused.Elaborable where
  lambda_var name := List.cons_ne_nil _ _
  lambda_single _ _ _ _ := List.cons_ne_nil _ _
  caseOf_of_lambda _ _ _ := trivial
  block_var name := by
    simp only [fused, List.forall_mem_singleton]
    rfl

theorem elaborable_nested : nested.Elaborable where
  lambda_var name := ⟨name, rfl⟩
  lambda_single params h param hparam := by
    obtain ⟨name, rfl⟩ := h
    exact ⟨name, by rw [List.mem_singleton.1 hparam]⟩
  -- all parameters are variables already, so no case is ever asked for
  caseOf_of_lambda param h hvar := by
    obtain ⟨name, h⟩ := h
    rw [(List.cons.inj h).1] at hvar
    cases hvar
  block_var name := by
    simp only [nested, List.forall_mem_singleton]
    exact ⟨Nat.le_refl 1, rfl⟩

/-- Where no rule of elaboration has anything to do, a lambda has one variable. -/
theorem exists_var_of_idle {params : List Pattern} {body : Expr} (hne : params ≠ [])
    (hidle : ∀ rule ∈ Pass.elaboration.rules, rule.Idle (.lam params body)) :
    ∃ name, params = [.var name] := by
  simp only [Pass.rules, List.forall_mem_cons, Rule.Idle] at hidle
  obtain ⟨hcurrying, hlift, -⟩ := hidle
  match params with
  | [] => exact absurd rfl hne
  | _ :: _ :: _ => cases hcurrying ⟨.validate, false⟩ .initial
  | [param] =>
    cases param with
    | var name => exact ⟨name, rfl⟩
    | wildcard | lit _ | tuple _ | con _ _ => cases hlift ⟨.validate, false⟩ .initial

/-- Where no rule of elaboration has anything to do, there is no case. -/
theorem not_idle_caseOf {scrutinee : Expr} {arms : List (Arm Expr)} :
    ¬ ∀ rule ∈ Pass.elaboration.rules, rule.Idle (.caseOf scrutinee arms) := by
  intro hidle
  have hcase := hidle .caseElimination (by decide) ⟨.validate, false⟩ .initial
  simp only [Rule.fire, expandCase?, Except.ok.injEq] at hcase
  split at hcase <;> cases hcase

/-- Where no rule of elaboration has anything to do, a block of one value binds a variable. -/
theorem exists_var_of_idle_letIn {pattern : Pattern} {value body : Expr}
    (hpattern : pattern.isIrrefutable = true)
    (hidle : ∀ rule ∈ Pass.elaboration.rules, rule.Idle (.letIn [.value pattern value] body)) :
    ∃ name, pattern = .var name := by
  have hflatten := hidle .letTupleFlattening (by decide) ⟨.validate, false⟩ .initial
  simp only [Rule.fire, flattenTuple?, Except.ok.injEq] at hflatten
  cases pattern with
  | var name => exact ⟨name, rfl⟩
  | wildcard => cases hflatten
  | lit _ | con _ _ => cases hpattern
  | tuple elements =>
    simp only [hpattern] at hflatten
    cases hflatten

theorem admits_elaborated {e : Expr} (h : fused.Admits e)
    (hidle : ∀ rule ∈ Pass.elaboration.rules, rule.Idle e) : elaborated.Admits e := by
  cases e with
  | lam params body => exact exists_var_of_idle h hidle
  | caseOf scrutinee arms => exact not_idle_caseOf hidle
  | letIn _ _ => exact h
  | var _ | lit _ | con _ | prim _ | app _ _ | tuple _ | cond _ _ _ => trivial

theorem admits_core {e : Expr} (h : nested.Admits e)
    (hidle : ∀ rule ∈ Pass.elaboration.rules, rule.Idle e) : core.Admits e := by
  cases e with
  | lam _ _ => exact h
  | caseOf _ _ => exact h
  | letIn decls body =>
    obtain ⟨hlength, hvalues⟩ := h
    match decls with
    | [] => exact .inl rfl
    | [.value pattern value] =>
      obtain ⟨name, rfl⟩ := exists_var_of_idle_letIn (hvalues _ List.mem_cons_self) hidle
      exact .inr ⟨name, rfl⟩
    | [.clause _ _ _] => exact (hvalues _ List.mem_cons_self).elim
    | [.data _] => exact (hvalues _ List.mem_cons_self).elim
    | _ :: _ :: _ => simp at hlength
  | var _ | lit _ | con _ | prim _ | app _ _ | tuple _ | cond _ _ _ => trivial

end Grammar

end Clausal
