import Clausal.Proofs.Simplification.Clauses
import Clausal.Proofs.Simplification.Fixpoint
import Clausal.Proofs.Simplification.Nesting

/-!
# Free variables under simplification

No simplification rule brings a free variable to an expression, wherever it fires. Rules move and
copy subexpressions under new binders, which may only take free variables away, and group nesting
puts no declaration where a name that it uses is out of scope.

## Main results

* `Matching.mem_free_expand`, `Matching.mem_free_bindLazily`: the free variables of an expanded
  match;
* `Rule.free_fire_subset`, `toFixpoint_free_subset`: no rule, and so no run of rules, brings a
  free variable.
-/

namespace Clausal

variable {name : String}

open Clausal.Expr

/-! ## Matches -/

namespace Matching

theorem mem_free_probe {primitive : Primitive} {s : Expr} :
    name ∈ (probe primitive s).free ↔ name ∈ s.free := by
  simp [probe, mem_free_app1, free]

theorem length_parts (count : Nat) (s : Expr) : (parts count s).length = count := by
  rw [parts]
  split
  · next h => exact h.symm
  · rw [selectors, List.length_map, List.length_range]

/-- The free variables of a part of a value are those of the value. -/
theorem mem_free_of_mem_parts {count : Nat} {s part : Expr} (h : part ∈ parts count s) :
    part.free ⊆ s.free := by
  rw [parts] at h
  split at h
  · rw [List.mem_singleton.1 h]
    exact List.Subset.refl _
  · rw [selectors, List.mem_map] at h
    obtain ⟨i, -, rfl⟩ := h
    exact fun _ => mem_free_probe.1

/-- The components that an expression shows are those of a tuple. -/
theorem eq_tuple_of_components? {count : Nat} {s : Expr} {components : List Expr}
    (h : components? count s = some components) :
    s = .tuple components ∧ components.length = count := by
  rw [components?.eq_def] at h
  split at h
  · split at h
    · next hlength =>
      obtain rfl := Option.some.inj h
      exact ⟨rfl, hlength⟩
    · contradiction
  · contradiction

/-- The parts of an expression that shows no components show none. -/
theorem components?_of_mem_parts {size : Nat} {s part : Expr}
    (hs : size = 1 → ∀ count, components? count s = none) (h : part ∈ parts size s) (count : Nat) :
    components? count part = none := by
  rw [parts] at h
  split at h
  · next hsize => exact List.mem_singleton.1 h ▸ hs hsize count
  · rw [selectors, List.mem_map] at h
    obtain ⟨_, -, rfl⟩ := h
    rfl

theorem mem_free_bindName {x : String} {s body : Expr} (h : name ∈ (bindName x s body).free) :
    name ∈ s.free ∨ name ∈ body.free ∧ name ≠ x := by
  have hbound (h : name ∈ (app1 (lam1 x body) s).free) :
      name ∈ s.free ∨ name ∈ body.free ∧ name ≠ x := by
    rw [mem_free_app1, mem_free_lam1] at h
    exact h.symm
  rw [bindName.eq_def] at h
  split at h
  · next other =>
    split at h
    · next hother =>
      by_cases hname : name = x
      · exact .inl (mem_free_var.2 (hname.trans hother.symm))
      · exact .inr ⟨h, hname⟩
    · exact hbound h
  · exact hbound h

mutual

/-- A variable that is free in an expanded match is free in the value, in the success without
being bound by the pattern, or in the failure. -/
theorem mem_free_expand (p : Pattern) {s success failure : Expr}
    (h : name ∈ (expand p s success failure).free) :
    name ∈ s.free ∨ name ∈ success.free ∧ name ∉ p.boundNames ∨ name ∈ failure.free := by
  match p with
  | .var x =>
    rw [expand] at h
    rcases mem_free_bindName h with h | ⟨h, hx⟩
    · exact .inl h
    · exact .inr (.inl ⟨h, by simpa [Pattern.boundNames] using hx⟩)
  | .wildcard =>
    rw [expand] at h
    exact .inr (.inl ⟨h, by simp [Pattern.boundNames]⟩)
  | .lit literal =>
    rw [expand, mem_free_cond, mem_free_probe] at h
    rcases h with h | h | h
    · exact .inl h
    · exact .inr (.inl ⟨h, by simp [Pattern.boundNames]⟩)
    · exact .inr (.inr h)
  | .con constructor args =>
    rw [expand, mem_free_cond, mem_free_probe] at h
    rcases h with h | h | h
    · exact .inl h
    · rcases mem_free_expandAll args (length_parts _ _).symm h with ⟨part, hpart, h⟩ | h | h
      · exact .inl (mem_free_probe.1 (mem_free_of_mem_parts hpart h))
      · exact .inr (.inl h)
      · exact .inr (.inr h)
    · exact .inr (.inr h)
  | .tuple elements =>
    rw [expand] at h
    split at h
    · next components hcomponents =>
      -- the components that the value shows are matched in its place
      obtain ⟨hs, hlength⟩ := eq_tuple_of_components? hcomponents
      rcases mem_free_expandAll elements hlength.symm h with ⟨part, hpart, h⟩ | h | h
      · rw [hs]
        exact .inl (mem_free_tuple.2 ⟨part, hpart, h⟩)
      · exact .inr (.inl h)
      · exact .inr (.inr h)
    · dsimp only at h
      -- a tuple of one component is matched like its component, without a test
      have hmatched (h : name ∈ (expandAll elements (parts elements.length s) success failure).free) :
          name ∈ s.free ∨ name ∈ success.free ∧ name ∉ (Pattern.tuple elements).boundNames
            ∨ name ∈ failure.free := by
        rcases mem_free_expandAll elements (length_parts _ _).symm h with ⟨part, hpart, h⟩ | h | h
        · exact .inl (mem_free_of_mem_parts hpart h)
        · exact .inr (.inl h)
        · exact .inr (.inr h)
      split at h
      · exact hmatched h
      · rw [mem_free_cond, mem_free_probe] at h
        rcases h with h | h | h
        · exact .inl h
        · exact hmatched h
        · exact .inr (.inr h)

/-- The same for patterns matched one after the other. -/
theorem mem_free_expandAll (ps : List Pattern) {ss : List Expr} {success failure : Expr}
    (hlength : ps.length = ss.length) (h : name ∈ (expandAll ps ss success failure).free) :
    (∃ s ∈ ss, name ∈ s.free)
      ∨ name ∈ success.free ∧ name ∉ Pattern.boundNamesList ps ∨ name ∈ failure.free := by
  match ps, ss with
  | [], [] =>
    rw [expandAll_nil_left] at h
    exact .inr (.inl ⟨h, List.not_mem_nil⟩)
  | p :: ps, s :: ss =>
    rw [expandAll] at h
    rw [List.exists_mem_cons_iff, Pattern.boundNamesList, List.mem_append, not_or]
    rcases mem_free_expand p h with h | ⟨h, hp⟩ | h
    · exact .inl (.inl h)
    · rcases mem_free_expandAll ps (Nat.succ.inj hlength) h with h | ⟨h, hps⟩ | h
      · exact .inl (.inr h)
      · exact .inr (.inl ⟨h, hp, hps⟩)
      · exact .inr (.inr h)
    · exact .inr (.inr h)

end

/-- A failure that is shared is free beside the match, and not in it. -/
theorem mem_free_elaborate {share : Bool} {p : Pattern} {s success failure : Expr}
    {supply : FreshSupply} (h : name ∈ (elaborate share p s success failure supply).1.free) :
    name ∈ s.free ∨ name ∈ success.free ∧ name ∉ p.boundNames ∨ name ∈ failure.free := by
  rw [elaborate] at h
  dsimp only at h
  split at h
  -- the match fails with a variable, which is bound to the failure around it
  · rw [mem_free_app1, mem_free_lam1] at h
    rcases h with ⟨h, hne⟩ | h
    · rcases mem_free_expand p h with h | h | h
      · exact .inl h
      · exact .inr (.inl h)
      · exact absurd (mem_free_var.1 h) hne
    · exact .inr (.inr h)
  · exact mem_free_expand p h

mutual

/-- The names of an irrefutable pattern are bound around the body. -/
theorem mem_free_bindLazily (p : Pattern) {s body : Expr}
    (h : name ∈ (bindLazily p s body).free) :
    name ∈ s.free ∨ name ∈ body.free ∧ name ∉ p.boundNames := by
  have hexpand {p : Pattern} (h : name ∈ (expand p s body .bot).free) :
      name ∈ s.free ∨ name ∈ body.free ∧ name ∉ p.boundNames := by
    rcases mem_free_expand p h with h | h | h
    · exact .inl h
    · exact .inr h
    · exact absurd h List.not_mem_nil
  match p with
  | .var x =>
    rw [bindLazily] at h
    refine (mem_free_bindName h).imp_right fun h => ⟨h.1, ?_⟩
    simpa [Pattern.boundNames] using h.2
  | .wildcard =>
    rw [bindLazily] at h
    exact .inr ⟨h, by simp [Pattern.boundNames]⟩
  | .lit literal =>
    rw [bindLazily] at h
    exact hexpand h
  | .con constructor args =>
    rw [bindLazily] at h
    exact hexpand h
  | .tuple elements =>
    rw [bindLazily] at h
    refine (mem_free_bindAllLazily elements (length_parts _ _).symm h).imp_left ?_
    rintro ⟨part, hpart, h⟩
    exact mem_free_of_mem_parts hpart h

/-- The same for patterns bound one after the other. -/
theorem mem_free_bindAllLazily (ps : List Pattern) {ss : List Expr} {body : Expr}
    (hlength : ps.length = ss.length) (h : name ∈ (bindAllLazily ps ss body).free) :
    (∃ s ∈ ss, name ∈ s.free) ∨ name ∈ body.free ∧ name ∉ Pattern.boundNamesList ps := by
  match ps, ss with
  | [], [] =>
    rw [bindAllLazily] at h
    · exact .inr ⟨h, List.not_mem_nil⟩
    · exact nofun
  | p :: ps, s :: ss =>
    rw [bindAllLazily] at h
    rw [List.exists_mem_cons_iff, Pattern.boundNamesList, List.mem_append, not_or]
    rcases mem_free_bindLazily p h with h | ⟨h, hp⟩
    · exact .inl (.inl h)
    · exact (mem_free_bindAllLazily ps (Nat.succ.inj hlength) h).imp .inr fun h => ⟨h.1, hp, h.2⟩

end

end Matching

/-! ## Rules but for group nesting -/

/-- A chain of matches binds the names of each pattern around its arm. -/
theorem mem_free_matchChain {share : Bool} {scrutinee : Expr} {supply : FreshSupply}
    {arms : List (Arm Expr)} (h : name ∈ (matchChain share scrutinee supply arms).1.free) :
    name ∈ scrutinee.free ∨ ∃ arm ∈ arms, name ∈ arm.body.free ∧ name ∉ arm.pattern.boundNames := by
  induction arms with
  | nil => exact absurd h List.not_mem_nil
  | cons arm arms ih =>
    rw [List.exists_mem_cons_iff]
    rcases Matching.mem_free_elaborate h with h | h | h
    · exact .inl h
    · exact .inr (.inl h)
    · exact (ih h).imp_right .inr

theorem expandCase?_free_subset {share : Bool} {supply supply' : FreshSupply} {e e' : Expr}
    (h : expandCase? share supply e = some (e', supply')) : e'.free ⊆ e.free := by
  unfold expandCase? at h
  split at h
  · next scrutinee arms =>
    intro name hname
    rw [mem_free_caseOf]
    split at h
    · have hchain : (matchChain share scrutinee supply arms).1 = e' :=
        congrArg Prod.fst (Option.some.inj h)
      rw [← hchain] at hname
      exact mem_free_matchChain hname
    · obtain ⟨rfl, -⟩ := Prod.mk.inj (Option.some.inj h)
      rw [mem_free_app1, mem_free_lam1] at hname
      rcases hname with ⟨hname, hne⟩ | hname
      · exact (mem_free_matchChain hname).imp_left fun hvar => absurd (mem_free_var.1 hvar) hne
      · exact .inl hname
  · contradiction

/-- A function of each parameter in turn binds the same names. -/
theorem mem_free_curried {params : List Pattern} {body : Expr} :
    name ∈ (params.foldr (fun param body => Expr.lam [param] body) body).free
      ↔ name ∈ body.free ∧ name ∉ Pattern.boundNamesList params := by
  induction params with
  | nil => simp [Pattern.boundNamesList]
  | cons param params ih =>
    rw [List.foldr_cons, mem_free_lam, ih]
    simp only [Pattern.boundNamesList, List.mem_append, List.append_nil, not_or]
    exact ⟨fun h => ⟨h.1.1, h.2, h.1.2⟩, fun h => ⟨⟨h.1, h.2.2⟩, h.2.1⟩⟩

theorem curry?_free_subset {e e' : Expr} (h : curry? e = some e') : e'.free ⊆ e.free := by
  unfold curry? at h
  split at h
  · obtain rfl := Option.some.inj h
    intro name hname
    exact mem_free_lam.2 (mem_free_curried.1 hname)
  · contradiction

theorem liftPattern?_free_subset {supply supply' : FreshSupply} {e e' : Expr}
    (h : liftPattern? supply e = some (e', supply')) : e'.free ⊆ e.free := by
  unfold liftPattern? at h
  split at h
  · next param body =>
    split at h
    · contradiction
    · obtain ⟨rfl, -⟩ := Prod.mk.inj (Option.some.inj h)
      intro name hname
      rw [mem_free_lam1, mem_free_caseOf, mem_free_var] at hname
      obtain ⟨arm, harm, hbody, hparam⟩ := hname.1.resolve_left hname.2
      rw [List.mem_singleton.1 harm] at hbody hparam
      exact mem_free_lam.2 ⟨hbody, by simpa [Pattern.boundNamesList] using hparam⟩
  · contradiction

theorem flattenTuple?_free_subset {supply supply' : FreshSupply} {e e' : Expr}
    (h : flattenTuple? supply e = some (e', supply')) : e'.free ⊆ e.free := by
  unfold flattenTuple? at h
  split at h
  · obtain ⟨rfl, -⟩ := Prod.mk.inj (Option.some.inj h)
    intro name hname
    exact mem_free_letIn_value.2 ⟨.inr hname, by simp [Pattern.boundNames]⟩
  · next pattern value body _ =>
    split at h
    · contradiction
    · obtain ⟨rfl, -⟩ := Prod.mk.inj (Option.some.inj h)
      intro name hname
      rw [mem_free_letIn_value] at hname ⊢
      obtain ⟨hname, hfresh⟩ := hname
      simp only [Pattern.boundNames, List.mem_singleton] at hfresh
      -- the fresh variable is bound, so what is free is free in the value or in the body
      have hbound {e : Expr} (h : name ∈ (Matching.bindLazily pattern
          (.var supply.draw.1) e).free) : name ∈ e.free ∧ name ∉ pattern.boundNames :=
        (Matching.mem_free_bindLazily pattern h).resolve_left fun h => hfresh (mem_free_var.1 h)
      rcases hname with h | h
      · exact ⟨.inl (hbound h).1, (hbound h).2⟩
      · exact ⟨.inr (hbound h).1, (hbound h).2⟩
  · contradiction

/-! ## Clause fusion -/

theorem mem_freeDecls {decls : List (Decl Expr)} :
    name ∈ freeDecls decls ↔ ∃ decl ∈ decls, name ∈ decl.free := by
  induction decls with
  | nil => simp [freeDecls]
  | cons decl decls ih =>
    rw [List.exists_mem_cons_iff, ← ih]
    cases decl <;> simp [freeDecls, Decl.free]

theorem boundNamesList_map_var (names : List String) :
    Pattern.boundNamesList (names.map Pattern.var) = names := by
  induction names with
  | nil => rfl
  | cons name names ih => exact congrArg (name :: ·) ih

/-- The value of clauses binds the names of each clause around its right-hand side. -/
theorem mem_free_fusedValue {params : List Pattern} {body : Expr}
    {later : List (List Pattern × Expr)} {supply : FreshSupply}
    (h : name ∈ (fusedValue params body later supply).1.free) :
    ∃ clause ∈ (params, body) :: later,
      name ∈ clause.2.free ∧ name ∉ Pattern.boundNamesList clause.1 := by
  rw [fusedValue] at h
  split at h
  · next hparams =>
    refine ⟨(params, body), List.mem_cons_self, h, ?_⟩
    rw [List.isEmpty_iff.1 hparams]
    exact List.not_mem_nil
  · obtain ⟨h, hfresh⟩ := mem_free_lam.1 h
    rw [boundNamesList_map_var] at hfresh
    rcases mem_free_caseOf.1 h with h | ⟨arm, harm, hbody, hpattern⟩
    · -- the scrutinee is made of the parameters
      obtain ⟨element, helement, h⟩ := mem_free_tuple.1 h
      obtain ⟨other, hother, rfl⟩ := List.mem_map.1 helement
      rw [mem_free_var.1 h] at hfresh
      exact absurd hother hfresh
    · obtain ⟨clause, hclause, rfl⟩ := List.mem_map.1 harm
      exact ⟨clause, hclause, hbody, hpattern⟩

theorem fuseClauses_free_subset {options : SimplifyOptions} {supply supply' : FreshSupply}
    {decls decls' : List (Decl Expr)} (body : Expr)
    (h : fuseClauses options supply decls = .ok (some (decls', supply'))) :
    (letIn decls' body).free ⊆ (letIn decls body).free := by
  obtain ⟨before, func, params, first, after, -, rfl, rfl, -⟩ := fuseClauses_eq_some h
  have hsub := withoutClausesOf_sublist func after
  intro name hname
  obtain ⟨hfree, hbound⟩ := mem_free_letIn.1 hname
  refine mem_free_letIn.2 ⟨hfree.imp_left fun hfree => ?_, fun hold => hbound ?_⟩
  · obtain ⟨decl, hdecl, hfree⟩ := mem_freeDecls.1 hfree
    rw [List.mem_append, List.mem_cons] at hdecl
    rcases hdecl with hdecl | rfl | hdecl
    · exact mem_freeDecls.2 ⟨decl, List.mem_append_left _ hdecl, hfree⟩
    · -- what is free in the value is free in one of the clauses
      have hvalue : name ∈ (fusedValue params first (clausesOf func after) supply).1.free := by
        simpa [Decl.free, freeDecls] using hfree
      obtain ⟨⟨params', body'⟩, hclause, hfree, hparams⟩ := mem_free_fusedValue hvalue
      refine mem_freeDecls.2 ⟨.clause func params' body', List.mem_append_right _ ?_, ?_⟩
      · rcases List.mem_cons.1 hclause with heq | hclause
        · rw [(Prod.mk.inj heq).1, (Prod.mk.inj heq).2]
          exact List.mem_cons_self
        · exact List.mem_cons_of_mem _ (mem_clausesOf.1 hclause)
      · rw [Decl.free, freeDecls, List.mem_append, mem_removeAll_iff]
        exact .inl ⟨hfree, hparams⟩
    · refine mem_freeDecls.2 ⟨decl, ?_, hfree⟩
      exact List.mem_append_right _ (List.mem_cons_of_mem _ (hsub.subset hdecl))
  · -- the name of the clauses that went is that of the value
    simp only [List.flatMap_append, List.flatMap_cons, List.mem_append, Decl.boundNames,
      Pattern.boundNames] at hold ⊢
    rcases hold with hold | hold | hold
    · exact .inl hold
    · exact .inr (.inl hold)
    · obtain ⟨decl, hdecl, hold⟩ := List.mem_flatMap.1 hold
      by_cases hkept : decl ∈ withoutClausesOf func after
      · exact .inr (.inr (List.mem_flatMap.2 ⟨decl, hkept, hold⟩))
      · refine .inr (.inl ?_)
        cases decl with
        | clause other _ _ =>
          simp only [withoutClausesOf, List.mem_filter, hdecl, true_and, bne_iff_ne, ne_eq,
            not_not] at hkept
          rw [← hkept]
          exact hold
        | value _ _ | data _ => exact absurd (List.mem_filter.2 ⟨hdecl, rfl⟩) hkept

/-! ## Group nesting -/

theorem mem_free_letIn_valueDecls {bindings : List (Pattern × Expr)} {body : Expr} :
    name ∈ (letIn (valueDecls bindings) body).free
      ↔ (name ∈ body.free ∨ ∃ binding ∈ bindings, name ∈ binding.2.free)
        ∧ ∀ binding ∈ bindings, name ∉ binding.1.boundNames := by
  rw [mem_free_letIn, or_comm, mem_freeDecls]
  simp [valueDecls, Decl.free, freeDecls, Decl.boundNames, List.flatMap_map]

theorem nestGroups?_free_subset {e e' : Expr} (h : nestGroups? e = some e') :
    e'.free ⊆ e.free := by
  obtain ⟨bindings, body, rfl, hlength⟩ := exists_of_nestGroups?_eq_some h
  obtain ⟨groups, hgroups, -, hnest⟩ := exists_nestGroups?_eq hlength
  obtain rfl := Option.some.inj ((hnest body).symm.trans h)
  intro name hname
  obtain ⟨hfree, hbound⟩ := mem_free_nest hgroups.ordered hname
  refine mem_free_letIn_valueDecls.2 ⟨hfree.imp_right ?_, fun binding hbinding => ?_⟩
  · rintro ⟨binding, hbinding, hfree⟩
    exact ⟨binding, hgroups.perm.subset hbinding, hfree⟩
  · exact hbound binding (hgroups.perm.symm.subset hbinding)

/-! ## All rules -/

variable {options : SimplifyOptions} {rule : Rule} {rules : List Rule}
  {supply supply' : FreshSupply} {e e' : Expr}

/-- No rule brings a free variable. -/
theorem Rule.free_fire_subset (h : rule.fire options supply e = .ok (some (e', supply'))) :
    e'.free ⊆ e.free := by
  cases rule with
  | clauseFusion =>
    cases e with
    | letIn decls body =>
      rw [fire] at h
      obtain ⟨decls', hfuse, rfl⟩ := Attempt.map_eq_some.1 h
      exact fuseClauses_free_subset body hfuse
    | _ => cases h
  | currying =>
    simp only [fire, Except.ok.injEq, Option.map_eq_some_iff, Prod.mk.injEq] at h
    obtain ⟨_, hcurry, rfl, -⟩ := h
    exact curry?_free_subset hcurry
  | patternLambda => exact liftPattern?_free_subset (Except.ok.inj h)
  | caseElimination => exact expandCase?_free_subset (Except.ok.inj h)
  | letTupleFlattening => exact flattenTuple?_free_subset (Except.ok.inj h)
  | groupNesting =>
    simp only [fire, Except.ok.injEq, Option.map_eq_some_iff, Prod.mk.injEq] at h
    obtain ⟨_, hnest, rfl, -⟩ := h
    exact nestGroups?_free_subset hnest

/-- A subexpression that is replaced by one with fewer free variables leaves fewer. -/
theorem Expr.Rewrites.free_subset {R : Expr → Expr → Prop}
    (hR : ∀ c c', R c c' → c'.free ⊆ c.free) (h : e.Rewrites R e') : e'.free ⊆ e.free := by
  induction h with
  | root hroot => exact hR _ _ hroot
  | @child e c c' before after hchildren _ ih =>
    refine free_withChildren_subset ?_
    rw [hchildren]
    have hrefl (es : List Expr) : List.Forall₂ (fun c c' : Expr => c'.free ⊆ c.free) es es :=
      List.forall₂_same.2 fun c _ => List.Subset.refl _
    exact List.rel_append (hrefl before) (.cons ih (hrefl after))

/-- No run of rules brings a free variable. -/
theorem toFixpoint_free_subset
    (h : (toFixpoint options rules supply e).result = .ok (e', supply')) : e'.free ⊆ e.free := by
  obtain ⟨hfires, -⟩ := toFixpoint_eq_ok h
  generalize hbefore : (e, supply) = before at hfires
  generalize hafter : (e', supply') = after at hfires
  have hsubset : after.1.free ⊆ before.1.free := by
    clear hbefore hafter
    induction hfires with
    | refl => exact List.Subset.refl _
    | tail _ hfire ih =>
      obtain ⟨rule, -, hfire⟩ := hfire
      exact List.Subset.trans ((fireFirst_rewrites hfire).free_subset
        fun _ _ => Rule.free_fire_subset) ih
  rw [← hbefore, ← hafter] at hsubset
  exact hsubset

end Clausal
