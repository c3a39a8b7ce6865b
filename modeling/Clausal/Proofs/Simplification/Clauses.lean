import Clausal.Proofs.Simplification.FirstPlace

/-!
# Clauses of a block

What clause fusion finds in a block and what it leaves behind, and when the clauses of a name make
a function.

## Main results

* `Decl.ClausesAgree`: the clauses of each name make a function;
* `clauseError?_eq_none_iff`: the check of one name asks for that;
* `fuseClauses_eq_some`: the clauses of one name become a value in place of the first of them;
* `fuseClauses_eq_error`: fusion fails only if the check is asked for and fails.
-/

namespace Clausal

namespace Decl

variable {β : Type}

/-- The name of a clause with the number of its patterns. -/
def arity? : Decl β → Option (String × Nat)
  | .clause name params _ => some (name, params.length)
  | _ => none

@[simp] theorem arity?_outline (decl : Decl β) : decl.outline.arity? = decl.arity? := by
  cases decl <;> rfl

/-- Two clauses of one name have the same number of patterns, and have patterns. -/
def ClausesAgree (decls : List (Decl β)) : Prop :=
  (decls.filterMap arity?).Pairwise fun first other =>
    first.1 = other.1 → other.2 = first.2 ∧ first.2 ≠ 0

instance (decls : List (Decl β)) : Decidable (ClausesAgree decls) :=
  inferInstanceAs (Decidable (List.Pairwise _ _))

theorem clausesAgree_outline {decls : List (Decl β)} :
    ClausesAgree (decls.map outline) ↔ ClausesAgree decls := by
  have harity : (arity? ∘ outline : Decl β → _) = arity? := funext arity?_outline
  rw [ClausesAgree, ClausesAgree, List.filterMap_map, harity]

/-- Fewer clauses agree as well. -/
theorem ClausesAgree.sublist {decls decls' : List (Decl β)} (h : ClausesAgree decls)
    (hsub : decls'.Sublist decls) : ClausesAgree decls' :=
  List.Pairwise.sublist (hsub.filterMap arity?) h

end Decl

/-! ## The clauses of a name -/

theorem mem_clausesOf {name : String} {decls : List (Decl Expr)} {params : List Pattern}
    {body : Expr} : (params, body) ∈ clausesOf name decls ↔ .clause name params body ∈ decls := by
  rw [clausesOf, List.mem_filterMap]
  constructor
  · rintro ⟨decl, hdecl, h⟩
    cases decl with
    | clause other _ _ =>
      dsimp only at h
      split at h
      · next hname =>
        cases h
        exact hname ▸ hdecl
      · cases h
    | value _ _ | data _ => cases h
  · intro h
    exact ⟨_, h, if_pos rfl⟩

theorem withoutClausesOf_sublist (name : String) (decls : List (Decl Expr)) :
    (withoutClausesOf name decls).Sublist decls :=
  List.filter_sublist

/-- The check of a name passes if its later clauses agree with the first. -/
theorem clauseError?_eq_none_iff {name : String} {params : List Pattern}
    {later : List (List Pattern × Expr)} :
    clauseError? name params later = none
      ↔ ∀ clause ∈ later, clause.1.length = params.length ∧ params ≠ [] := by
  rw [clauseError?]
  split
  -- a later clause with another number of patterns
  · next other body hfind =>
    have hother : other.length ≠ params.length := by
      simpa only [bne_iff_ne] using List.find?_some hfind
    have hmem : (other, body) ∈ later := List.mem_of_find?_eq_some hfind
    simp only [reduceCtorEq, false_iff]
    exact fun h => hother (h _ hmem).1
  · next hfind =>
    simp only [List.find?_eq_none, bne_iff_ne, ne_eq, not_not] at hfind
    split
    -- a name without patterns that has a later clause
    · next hrepeated =>
      simp only [Bool.and_eq_true, List.isEmpty_iff, Bool.not_eq_true',
        List.isEmpty_eq_false_iff] at hrepeated
      obtain ⟨clause, hmem⟩ := List.exists_mem_of_ne_nil later hrepeated.2
      simp only [reduceCtorEq, false_iff]
      exact fun h => (h clause hmem).2 hrepeated.1
    · next hrepeated =>
      simp only [Bool.and_eq_true, List.isEmpty_iff, Bool.not_eq_true',
        List.isEmpty_eq_false_iff, not_and, not_not] at hrepeated
      refine iff_of_true rfl fun clause hmem => ⟨hfind clause hmem, fun hparams => ?_⟩
      rw [hrepeated hparams] at hmem
      exact List.not_mem_nil hmem

/-- In a block whose clauses agree, the check passes for the clauses after any first one. -/
theorem Decl.ClausesAgree.clauseError?_eq_none {before after : List (Decl Expr)} {name : String}
    {params : List Pattern} {body : Expr}
    (h : ClausesAgree (before ++ .clause name params body :: after)) :
    clauseError? name params (clausesOf name after) = none := by
  rw [clauseError?_eq_none_iff]
  rintro ⟨params', body'⟩ hclause
  have hlater : (name, params'.length) ∈ after.filterMap Decl.arity? :=
    List.mem_filterMap.2 ⟨_, mem_clausesOf.1 hclause, rfl⟩
  -- what stands before the first clause of the name does not matter
  have hblock := h.sublist (List.sublist_append_right before _)
  rw [ClausesAgree, List.filterMap_cons, arity?, List.pairwise_cons] at hblock
  obtain ⟨hlength, hne⟩ := hblock.1 _ hlater rfl
  exact ⟨hlength, fun hparams => hne (congrArg List.length hparams)⟩

/-- The clauses left agree when those of one name are taken out. -/
theorem Decl.ClausesAgree.of_clause {before after : List (Decl Expr)} {name : String}
    {params : List Pattern} {body value : Expr}
    (h : ClausesAgree (before ++ .clause name params body :: after)) :
    ClausesAgree (before ++ .value (.var name) value :: withoutClausesOf name after) := by
  refine List.Pairwise.sublist ?_ h
  rw [List.filterMap_append, List.filterMap_append]
  refine (List.Sublist.refl _).append ?_
  exact ((withoutClausesOf_sublist name after).filterMap arity?).cons _

variable {options : SimplifyOptions} {supply supply' : FreshSupply}

/-- Clauses are fused unless there are none, whatever the options and the supply. -/
theorem fuseClauses_eq_none_iff {decls : List (Decl Expr)} :
    fuseClauses options supply decls = .ok none ↔ decls.filterMap Decl.arity? = [] := by
  induction decls with
  | nil => simp [fuseClauses]
  | cons decl decls ih =>
    cases decl with
    | clause name params body =>
      rw [fuseClauses, List.filterMap_cons, Decl.arity?]
      refine iff_of_false (fun h => ?_) (List.cons_ne_nil _ _)
      dsimp only at h
      split at h <;> cases h
    | value _ _ | data _ => simp [fuseClauses, ih, Decl.arity?]

/-- Fusion replaces the first clause of the block by the value of all clauses of its name, and
takes the others out. The check has passed if it was asked for. -/
theorem fuseClauses_eq_some {decls decls' : List (Decl Expr)}
    (h : fuseClauses options supply decls = .ok (some (decls', supply'))) :
    ∃ before name params body after,
      before.filterMap Decl.arity? = []
        ∧ decls = before ++ .clause name params body :: after
        ∧ decls' = before
          ++ .value (.var name) (fusedValue params body (clausesOf name after) supply).1
          :: withoutClausesOf name after
        ∧ supply' = (fusedValue params body (clausesOf name after) supply).2
        ∧ (options.arityCheck = .validate → clauseError? name params (clausesOf name after) = none)
        := by
  induction decls generalizing decls' with
  | nil => cases h
  | cons decl decls ih =>
    cases decl with
    | clause name params body =>
      rw [fuseClauses] at h
      dsimp only at h
      split at h
      · cases h
      · next hcheck =>
        cases h
        refine ⟨[], name, params, body, decls, rfl, rfl, rfl, rfl, fun hvalidate => ?_⟩
        rwa [if_pos hvalidate] at hcheck
    | value _ _ | data _ =>
      rw [fuseClauses.eq_def] at h
      obtain ⟨rest, hrest, rfl⟩ := Attempt.map_eq_some.1 h
      obtain ⟨before, name, params, body, after, hbefore, rfl, rfl, hleft⟩ := ih hrest
      -- a declaration without clauses stays in front
      refine ⟨_ :: before, name, params, body, after, ?_, rfl, rfl, hleft⟩
      simpa [Decl.arity?] using hbefore

/-- Fusion fails only if the clauses are checked, at the first clause of the block. -/
theorem fuseClauses_eq_error {decls : List (Decl Expr)} {error : ClauseError}
    (h : fuseClauses options supply decls = .error error) :
    options.arityCheck = .validate ∧ ∃ before name params body after,
      before.filterMap Decl.arity? = []
        ∧ decls = before ++ .clause name params body :: after
        ∧ clauseError? name params (clausesOf name after) = some error := by
  induction decls with
  | nil => cases h
  | cons decl decls ih =>
    cases decl with
    | clause name params body =>
      rw [fuseClauses] at h
      dsimp only at h
      split at h
      · next error' hcheck =>
        cases h
        split at hcheck
        · next hvalidate => exact ⟨hvalidate, [], name, params, body, decls, rfl, rfl, hcheck⟩
        · cases hcheck
      · cases h
    | value _ _ | data _ =>
      rw [fuseClauses.eq_def] at h
      obtain ⟨hvalidate, before, name, params, body, after, hbefore, rfl, hcheck⟩ :=
        ih (Attempt.map_eq_error.1 h)
      refine ⟨hvalidate, _ :: before, name, params, body, after, ?_, rfl, hcheck⟩
      simpa [Decl.arity?] using hbefore

end Clausal
