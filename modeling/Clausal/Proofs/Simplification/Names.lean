import Clausal.Proofs.FreshSupply
import Clausal.Proofs.Simplification.Clauses
import Clausal.Proofs.Simplification.FreeVariables
import Clausal.Proofs.Simplification.Nesting
import Clausal.Proofs.Surface.Names

/-!
# Names under simplification

What a rule makes of an expression has no names but those of the expression and the fresh variables
that the rule draws, bound or free. The supply never goes back.

Each lemma is about any property of names: if the parts and the variables drawn have it, then so has
what is made of them.

## Main results

* `Matching.named_expand`, `Matching.named_bindLazily`: the names of an expanded match;
* `named_matchChain`: the names of a chain of matches;
* `Rule.named_fire`: the names of what a rule makes of an expression.
-/

namespace Clausal

variable {P : String → Prop}

open Clausal.Expr

/-! ## Matches -/

namespace Matching

theorem named_probe {primitive : Primitive} {s : Expr} :
    (probe primitive s).Named P ↔ s.Named P := by
  simp [probe]

theorem named_of_mem_parts {count : Nat} {s part : Expr} (h : part ∈ parts count s)
    (hs : s.Named P) : part.Named P := by
  rw [parts] at h
  split at h
  · exact List.mem_singleton.1 h ▸ hs
  · obtain ⟨i, -, rfl⟩ := List.mem_map.1 h
    exact named_probe.2 hs

theorem named_bindName {x : String} {s body : Expr} (hx : P x) (hs : s.Named P)
    (hbody : body.Named P) : (bindName x s body).Named P := by
  have hbound : (app1 (lam1 x body) s).Named P := named_app1.2 ⟨named_lam1.2 ⟨hx, hbody⟩, hs⟩
  unfold bindName
  split
  · split
    · exact hbody
    · exact hbound
  · exact hbound

mutual

/-- The names of an expanded match are those of the pattern, of the value, of the success and of
the failure. -/
theorem named_expand (p : Pattern) {s success failure : Expr} (hp : ∀ name ∈ p.boundNames, P name)
    (hs : s.Named P) (hsuccess : success.Named P) (hfailure : failure.Named P) :
    (expand p s success failure).Named P := by
  match p with
  | .var x =>
    rw [expand]
    exact named_bindName (hp x (List.mem_singleton_self x)) hs hsuccess
  | .wildcard =>
    rw [expand]
    exact hsuccess
  | .lit literal =>
    rw [expand, named_cond, named_probe]
    exact ⟨hs, hsuccess, hfailure⟩
  | .con constructor args =>
    rw [expand, named_cond, named_probe]
    refine ⟨hs, named_expandAll args hp (fun part hpart => ?_) hsuccess hfailure, hfailure⟩
    exact named_of_mem_parts hpart (named_probe.2 hs)
  | .tuple elements =>
    have hmatched : (expandAll elements (parts elements.length s) success failure).Named P :=
      named_expandAll elements hp (fun part hpart => named_of_mem_parts hpart hs) hsuccess hfailure
    rw [expand]
    split
    -- the components that the scrutinee shows are parts of it
    · next components hcomponents =>
      obtain ⟨rfl, -⟩ := eq_tuple_of_components? hcomponents
      exact named_expandAll elements hp (named_tuple.1 hs) hsuccess hfailure
    · dsimp only
      split
      · exact hmatched
      · rw [named_cond, named_probe]
        exact ⟨hs, hmatched, hfailure⟩

/-- The same for patterns matched one after the other. -/
theorem named_expandAll (ps : List Pattern) {ss : List Expr} {success failure : Expr}
    (hps : ∀ name ∈ Pattern.boundNamesList ps, P name) (hss : ∀ s ∈ ss, s.Named P)
    (hsuccess : success.Named P) (hfailure : failure.Named P) :
    (expandAll ps ss success failure).Named P := by
  match ps, ss with
  | p :: ps, s :: ss =>
    rw [expandAll]
    rw [Pattern.boundNamesList, List.forall_mem_append] at hps
    obtain ⟨hs, hss⟩ := List.forall_mem_cons.1 hss
    exact named_expand p hps.1 hs (named_expandAll ps hps.2 hss hsuccess hfailure) hfailure
  | [], _ =>
    rw [expandAll_nil_left]
    exact hsuccess
  | _ :: _, [] =>
    rw [expandAll_nil_right]
    exact hsuccess

end

mutual

/-- The names of a pattern that is bound lazily are those of the pattern, of the value and of the
body. -/
theorem named_bindLazily (p : Pattern) {s body : Expr} (hp : ∀ name ∈ p.boundNames, P name)
    (hs : s.Named P) (hbody : body.Named P) : (bindLazily p s body).Named P := by
  match p with
  | .var x =>
    rw [bindLazily]
    exact named_bindName (hp x (List.mem_singleton_self x)) hs hbody
  | .wildcard =>
    rw [bindLazily]
    exact hbody
  | .lit literal | .con constructor args =>
    rw [bindLazily]
    exact named_expand _ hp hs hbody (named_prim _)
  | .tuple elements =>
    rw [bindLazily]
    exact named_bindAllLazily elements hp (fun part hpart => named_of_mem_parts hpart hs) hbody

/-- The same for patterns bound one after the other. -/
theorem named_bindAllLazily (ps : List Pattern) {ss : List Expr} {body : Expr}
    (hps : ∀ name ∈ Pattern.boundNamesList ps, P name) (hss : ∀ s ∈ ss, s.Named P)
    (hbody : body.Named P) : (bindAllLazily ps ss body).Named P := by
  match ps, ss with
  | p :: ps, s :: ss =>
    rw [bindAllLazily]
    rw [Pattern.boundNamesList, List.forall_mem_append] at hps
    obtain ⟨hs, hss⟩ := List.forall_mem_cons.1 hss
    exact named_bindLazily p hps.1 hs (named_bindAllLazily ps hps.2 hss hbody)
  | [], _ | _ :: _, [] =>
    rw [bindAllLazily]
    · exact hbody
    · exact nofun

end

/-- A failure is copied, or bound to the next variable. -/
theorem elaborate_eq (share : Bool) (p : Pattern) (s success failure : Expr)
    (supply : FreshSupply) :
    elaborate share p s success failure supply = (expand p s success failure, supply)
      ∨ elaborate share p s success failure supply
        = (app1 (lam1 supply.draw.1 (expand p s success (.var supply.draw.1))) failure,
          supply.draw.2) := by
  rw [elaborate]
  dsimp only
  split
  · exact .inr rfl
  · exact .inl rfl

theorem next_le_elaborate (share : Bool) (p : Pattern) (s success failure : Expr)
    (supply : FreshSupply) :
    supply.next ≤ (elaborate share p s success failure supply).2.next := by
  rcases elaborate_eq share p s success failure supply with h | h
  · exact h ▸ Nat.le_refl _
  · exact h ▸ Nat.le_succ _

/-- A match that draws no variable does not depend on the supply. -/
theorem elaborate_fst_eq (share : Bool) (p : Pattern) (s success failure : Expr)
    {supply : FreshSupply}
    (h : (elaborate share p s success failure supply).2.next ≤ supply.next)
    (supply' : FreshSupply) : (elaborate share p s success failure supply').1
      = (elaborate share p s success failure supply).1 := by
  rw [elaborate] at h
  dsimp only at h
  split at h
  · exact absurd h (Nat.not_succ_le_self _)
  · next hcopied =>
    rw [elaborate, elaborate]
    dsimp only
    rw [if_neg hcopied, if_neg hcopied]

theorem named_elaborate {share : Bool} {p : Pattern} {s success failure : Expr}
    {supply : FreshSupply} (hp : ∀ name ∈ p.boundNames, P name) (hs : s.Named P)
    (hsuccess : success.Named P) (hfailure : failure.Named P)
    (hdrawn : ∀ name, DrawnFrom supply.next
      (elaborate share p s success failure supply).2.next name → P name) :
    (elaborate share p s success failure supply).1.Named P := by
  rcases elaborate_eq share p s success failure supply with h | h
  · rw [h]
    exact named_expand p hp hs hsuccess hfailure
  · rw [h] at hdrawn ⊢
    have hfresh : P supply.draw.1 :=
      hdrawn _ ⟨supply.next, Nat.le_refl _, Nat.lt_succ_self _, rfl⟩
    refine named_app1.2 ⟨named_lam1.2 ⟨hfresh, ?_⟩, hfailure⟩
    exact named_expand p hp hs hsuccess (named_var.2 hfresh)

end Matching

/-! ## Chains of matches -/

theorem matchChain_cons (share : Bool) (s : Expr) (supply : FreshSupply) (arm : Arm Expr)
    (arms : List (Arm Expr)) :
    matchChain share s supply (arm :: arms)
      = Matching.elaborate share arm.pattern s arm.body (matchChain share s supply arms).1
        (matchChain share s supply arms).2 := rfl

theorem next_le_matchChain (share : Bool) (s : Expr) (supply : FreshSupply)
    (arms : List (Arm Expr)) : supply.next ≤ (matchChain share s supply arms).2.next := by
  induction arms with
  | nil => exact Nat.le_refl _
  | cons arm arms ih =>
    rw [matchChain_cons]
    exact ih.trans (Matching.next_le_elaborate ..)

/-- The names of a chain of matches are those of the value and of the arms. -/
theorem named_matchChain {share : Bool} {s : Expr} {supply : FreshSupply} {arms : List (Arm Expr)}
    (hs : s.Named P)
    (harms : ∀ arm ∈ arms, (∀ name ∈ arm.pattern.boundNames, P name) ∧ arm.body.Named P)
    (hdrawn : ∀ name, DrawnFrom supply.next (matchChain share s supply arms).2.next name → P name) :
    (matchChain share s supply arms).1.Named P := by
  induction arms with
  | nil => exact named_prim _
  | cons arm arms ih =>
    obtain ⟨⟨hpattern, hbody⟩, harms⟩ := List.forall_mem_cons.1 harms
    have hrest := next_le_matchChain share s supply arms
    have hfirst := Matching.next_le_elaborate share arm.pattern s arm.body
      (matchChain share s supply arms).1 (matchChain share s supply arms).2
    rw [matchChain_cons] at hdrawn ⊢
    -- the variables of the later arms are drawn before that of the first
    refine Matching.named_elaborate hpattern hs hbody (ih harms fun name h => ?_) fun name h => ?_
    · exact hdrawn name (h.mono (Nat.le_refl _) hfirst)
    · exact hdrawn name (h.mono hrest (Nat.le_refl _))

/-! ## Names that come and go -/

/-- Whether the names of an expression are those of an earlier one and fresh variables that were
drawn since. -/
structure NamesGrow (before after : Expr × FreshSupply) : Prop where
  next_le : before.2.next ≤ after.2.next
  named : after.1.Named fun name =>
    name ∈ before.1.names ∨ DrawnFrom before.2.next after.2.next name

namespace NamesGrow

variable {e e' : Expr} {supply supply' : FreshSupply}

theorem refl (state : Expr × FreshSupply) : NamesGrow state state :=
  ⟨Nat.le_refl _, fun _ h => .inl h⟩

theorem trans {first second third : Expr × FreshSupply} (h : NamesGrow first second)
    (h' : NamesGrow second third) : NamesGrow first third := by
  refine ⟨h.next_le.trans h'.next_le, fun name hname => ?_⟩
  rcases h'.named name hname with hname | hdrawn
  · exact (h.named name hname).imp_right fun hdrawn => hdrawn.mono (Nat.le_refl _) h'.next_le
  · exact .inr (hdrawn.mono h.next_le (Nat.le_refl _))

/-- An expression whose names have every property that the names of another have. -/
theorem of_named (hle : supply.next ≤ supply'.next)
    (h : ∀ P : String → Prop, e.Named P →
      (∀ name, DrawnFrom supply.next supply'.next name → P name) → e'.Named P) :
    NamesGrow (e, supply) (e', supply') :=
  ⟨hle, h _ (fun _ hname => .inl hname) fun _ hdrawn => .inr hdrawn⟩

/-- The same at a place of an expression. -/
theorem around {f : Expr → Expr} (hf : Context f) (h : NamesGrow (e, supply) (e', supply')) :
    NamesGrow (f e, supply) (f e', supply') := by
  refine ⟨h.next_le, hf.named (fun _ hname => .inl hname) ?_⟩
  exact h.named.imp fun name hname => hname.imp_left fun hname =>
    hf.named_of_named (fun _ hmem => hmem) name hname

end NamesGrow

/-! ## Rules -/

variable {options : SimplifyOptions} {rule : Rule} {supply supply' : FreshSupply} {e e' : Expr}

theorem named_curried {params : List Pattern} {body : Expr} :
    (params.foldr (fun param body => lam [param] body) body).Named P
      ↔ (∀ name ∈ Pattern.boundNamesList params, P name) ∧ body.Named P := by
  induction params with
  | nil => simp [Pattern.boundNamesList]
  | cons param params ih =>
    rw [List.foldr_cons, named_lam, ih]
    simp only [Pattern.boundNamesList, List.append_nil, List.forall_mem_append, and_assoc]

theorem namesGrow_curry? (h : curry? e = some e') : NamesGrow (e, supply) (e', supply) := by
  refine .of_named (Nat.le_refl _) fun P he _ => ?_
  unfold curry? at h
  split at h
  · obtain rfl := Option.some.inj h
    exact named_curried.2 (named_lam.1 he)
  · contradiction

theorem namesGrow_liftPattern? (h : liftPattern? supply e = some (e', supply')) :
    NamesGrow (e, supply) (e', supply') := by
  unfold liftPattern? at h
  split at h
  · next param body =>
    split at h
    · contradiction
    · obtain ⟨rfl, rfl⟩ := Prod.mk.inj (Option.some.inj h)
      refine .of_named (Nat.le_succ _) fun P he hdrawn => ?_
      obtain ⟨hparam, hbody⟩ := named_lam.1 he
      have hfresh : P supply.draw.1 :=
        hdrawn _ ⟨supply.next, Nat.le_refl _, Nat.lt_succ_self _, rfl⟩
      rw [named_lam1, named_caseOf, named_var, List.forall_mem_singleton]
      refine ⟨hfresh, hfresh, fun name hname => hparam name ?_, hbody⟩
      simpa [Pattern.boundNamesList] using hname
  · contradiction

theorem namesGrow_expandCase? {share : Bool} (h : expandCase? share supply e = some (e', supply')) :
    NamesGrow (e, supply) (e', supply') := by
  unfold expandCase? at h
  split at h
  · next scrutinee arms =>
    split at h
    · obtain rfl : e' = (matchChain share scrutinee supply arms).1 := by grind
      obtain rfl : supply' = (matchChain share scrutinee supply arms).2 := by grind
      refine .of_named (next_le_matchChain share scrutinee supply arms) fun P he hdrawn => ?_
      obtain ⟨hscrutinee, harms⟩ := named_caseOf.1 he
      exact named_matchChain hscrutinee harms hdrawn
    · obtain ⟨rfl, rfl⟩ := Prod.mk.inj (Option.some.inj h)
      have hnext := next_le_matchChain share (.var supply.draw.1) supply.draw.2 arms
      refine .of_named ((Nat.le_succ _).trans hnext) fun P he hdrawn => ?_
      obtain ⟨hscrutinee, harms⟩ := named_caseOf.1 he
      have hfresh : P supply.draw.1 := hdrawn _ ⟨supply.next, Nat.le_refl _, hnext, rfl⟩
      rw [named_app1, named_lam1]
      refine ⟨⟨hfresh, named_matchChain (named_var.2 hfresh) harms fun name h => ?_⟩, hscrutinee⟩
      exact hdrawn name (h.mono (Nat.le_succ _) (Nat.le_refl _))
  · contradiction

theorem namesGrow_flattenTuple? (h : flattenTuple? supply e = some (e', supply')) :
    NamesGrow (e, supply) (e', supply') := by
  unfold flattenTuple? at h
  split at h
  · obtain ⟨rfl, rfl⟩ := Prod.mk.inj (Option.some.inj h)
    exact .of_named (Nat.le_refl _) fun P he _ => (named_letIn_value.1 he).2
  · next pattern value body _ =>
    split at h
    · contradiction
    · obtain ⟨rfl, rfl⟩ := Prod.mk.inj (Option.some.inj h)
      refine .of_named (Nat.le_succ _) fun P he hdrawn => ?_
      obtain ⟨⟨hpattern, hvalue⟩, hbody⟩ := named_letIn_value.1 he
      have hfresh : P supply.draw.1 :=
        hdrawn _ ⟨supply.next, Nat.le_refl _, Nat.lt_succ_self _, rfl⟩
      have hbound {e : Expr} (h : e.Named P) :
          (Matching.bindLazily pattern (.var supply.draw.1) e).Named P :=
        Matching.named_bindLazily pattern hpattern (named_var.2 hfresh) h
      rw [named_letIn_value, Pattern.boundNames, List.forall_mem_singleton]
      exact ⟨⟨hfresh, hbound hvalue⟩, hbound hbody⟩
  · contradiction

/-! ## Clauses -/

theorem next_fusedValue (params : List Pattern) (body : Expr) (later : List (List Pattern × Expr))
    (supply : FreshSupply) : supply.next ≤ (fusedValue params body later supply).2.next := by
  rw [fusedValue]
  split
  · exact Nat.le_refl _
  · exact Nat.le_add_right _ _

/-- The names of the value of some clauses are those of the clauses. -/
theorem named_fusedValue {params : List Pattern} {body : Expr}
    {later : List (List Pattern × Expr)}
    (hclauses : ∀ clause ∈ (params, body) :: later,
      (∀ name ∈ Pattern.boundNamesList clause.1, P name) ∧ clause.2.Named P)
    (hdrawn : ∀ name, DrawnFrom supply.next (fusedValue params body later supply).2.next name →
      P name) :
    (fusedValue params body later supply).1.Named P := by
  rw [fusedValue] at hdrawn ⊢
  split at hdrawn
  · next hparams =>
    rw [if_pos hparams]
    exact (hclauses _ List.mem_cons_self).2
  · next hparams =>
    rw [if_neg hparams]
    have hnames : ∀ name ∈ (supply.drawMany params.length).1, P name :=
      fun name h => hdrawn name (FreshSupply.mem_drawMany h)
    rw [named_lam, boundNamesList_map_var, named_caseOf, named_tuple, List.forall_mem_map,
      List.forall_mem_map]
    exact ⟨hnames, fun name h => named_var.2 (hnames name h), hclauses⟩

theorem namesGrow_fuseClauses {decls decls' : List (Decl Expr)} (body : Expr)
    (h : fuseClauses options supply decls = .ok (some (decls', supply'))) :
    NamesGrow (letIn decls body, supply) (letIn decls' body, supply') := by
  obtain ⟨before, func, params, first, after, -, rfl, rfl, rfl, -⟩ := fuseClauses_eq_some h
  refine .of_named (next_fusedValue _ _ _ _) fun P he hdrawn => ?_
  rw [named_letIn, List.forall_mem_append, List.forall_mem_cons] at he ⊢
  obtain ⟨⟨hbefore, hfirst, hafter⟩, hbody⟩ := he
  have hclause {params : List Pattern} {body : Expr}
      (h : (∀ name ∈ (Decl.clause func params body).ownNames, P name)
        ∧ ∀ value ∈ (Decl.clause func params body).body?, value.Named P) :
      P func ∧ (∀ name ∈ Pattern.boundNamesList params, P name) ∧ body.Named P := by
    simpa [Decl.ownNames, Decl.boundNames, Decl.paramNames, Decl.body?, and_assoc] using h
  -- the later clauses of the function stand in the block, so their names do as well
  have hvalue : (fusedValue params first (clausesOf func after) supply).1.Named P := by
    refine named_fusedValue (List.forall_mem_cons.2 ⟨(hclause hfirst).2, ?_⟩) hdrawn
    exact fun clause hmem => (hclause (hafter _ (mem_clausesOf.1 hmem))).2
  refine ⟨⟨hbefore, ?_, fun decl hdecl => ?_⟩, hbody⟩
  · simpa [Decl.ownNames, Decl.boundNames, Decl.paramNames, Decl.body?, Pattern.boundNames]
      using ⟨(hclause hfirst).1, hvalue⟩
  · exact hafter decl ((withoutClausesOf_sublist func after).subset hdecl)

/-! ## Groups -/

theorem named_nest {bindings : List (Pattern × Expr)} {body : Expr} :
    (nest bindings body).Named P
      ↔ (∀ binding ∈ bindings, (∀ name ∈ binding.1.boundNames, P name) ∧ binding.2.Named P)
        ∧ body.Named P := by
  induction bindings with
  | nil => simp
  | cons binding bindings ih =>
    rw [nest_cons, named_letIn_value, ih, List.forall_mem_cons]
    simp only [and_assoc]

theorem named_groupBinding {group : List (Pattern × Expr)}
    (h : ∀ binding ∈ group, (∀ name ∈ binding.1.boundNames, P name) ∧ binding.2.Named P) :
    (∀ name ∈ (groupBinding group).1.boundNames, P name) ∧ (groupBinding group).2.Named P := by
  constructor
  · intro name hname
    obtain ⟨binding, hbinding, hname⟩ := mem_boundNames_groupBinding.1 hname
    exact (h binding hbinding).1 name hname
  · unfold groupBinding
    split
    · exact (h _ List.mem_cons_self).2
    · rw [named_tuple, List.forall_mem_map]
      exact fun binding hbinding => (h binding hbinding).2

theorem namesGrow_nestGroups? (h : nestGroups? e = some e') :
    NamesGrow (e, supply) (e', supply) := by
  obtain ⟨bindings, body, rfl, hlength⟩ := exists_of_nestGroups?_eq_some h
  obtain ⟨groups, hgroups, -, hnest⟩ := exists_nestGroups?_eq hlength
  obtain rfl := Option.some.inj ((hnest body).symm.trans h)
  refine .of_named (Nat.le_refl _) fun P he _ => ?_
  obtain ⟨hdecls, hbody⟩ := named_letIn.1 he
  refine named_nest.2 ⟨List.forall_mem_map.2 fun group hgroup => ?_, hbody⟩
  refine named_groupBinding fun binding hbinding => ?_
  -- a member of a group is a declaration of the block
  have hmem := hgroups.perm.subset (List.mem_flatten.2 ⟨group, hgroup, hbinding⟩)
  simpa [Decl.ownNames, Decl.boundNames, Decl.paramNames, Decl.body?]
    using hdecls _ (List.mem_map_of_mem hmem)

/-! ## All rules -/

/-- What a rule makes of an expression has the names of the expression and those that the rule
drew. -/
theorem Rule.namesGrow_fire (h : rule.fire options supply e = .ok (some (e', supply'))) :
    NamesGrow (e, supply) (e', supply') := by
  cases rule with
  | clauseFusion =>
    cases e with
    | letIn decls body =>
      rw [fire] at h
      obtain ⟨decls', hfuse, rfl⟩ := Attempt.map_eq_some.1 h
      exact namesGrow_fuseClauses body hfuse
    | _ => cases h
  | currying =>
    simp only [fire, Except.ok.injEq, Option.map_eq_some_iff, Prod.mk.injEq] at h
    obtain ⟨_, hcurry, rfl, rfl⟩ := h
    exact namesGrow_curry? hcurry
  | patternLambda => exact namesGrow_liftPattern? (Except.ok.inj h)
  | caseElimination => exact namesGrow_expandCase? (Except.ok.inj h)
  | letTupleFlattening => exact namesGrow_flattenTuple? (Except.ok.inj h)
  | groupNesting =>
    simp only [fire, Except.ok.injEq, Option.map_eq_some_iff, Prod.mk.injEq] at h
    obtain ⟨_, hnest, rfl, rfl⟩ := h
    exact namesGrow_nestGroups? hnest

end Clausal
