import Clausal.Simplification.Weight

/-!
# Every rule lowers the weight

The main statement is `Rule.weight_fire_lt`: what a rule makes of an expression weighs less
than the expression. So no order of applying the rules goes on forever.
-/

namespace Clausal

/-! ## Clause fusion -/

/-- The arms that fusion makes of the later clauses of a name. -/
private theorem weightArms_clauses_le (name : String) (decls : List (Decl Expr)) :
    Expr.weightArms ((clausesOf name decls).map fun (params, body) => ⟨.tuple params, body⟩)
        + Expr.weightDecls (withoutClausesOf name decls)
      ≤ Expr.weightDecls decls := by
  induction decls with
  | nil => simp [clausesOf, withoutClausesOf, Expr.weightArms, Expr.weightDecls]
  | cons decl decls ih =>
    cases decl with
    | clause other params body =>
      by_cases h : other = name
      -- a clause of the name turns into an arm, with the same factor on what follows it
      · simp only [clausesOf, withoutClausesOf, h, List.filterMap_cons, List.filter_cons,
          if_true, bne_self_eq_false, Bool.false_eq_true, if_false, List.map_cons,
          Expr.weightArms, Expr.weightDecls] at ih ⊢
        have := Nat.mul_le_mul_left (1 + (Pattern.tuple params).tests) ih
        simp only [Nat.mul_add, Nat.add_mul, Nat.one_mul] at this ⊢
        omega
      -- any other clause keeps its factor, now on fewer declarations
      · simp only [clausesOf, withoutClausesOf, h, List.filterMap_cons, List.filter_cons,
          if_false, bne_iff_ne, ne_eq, not_false_eq_true, if_true, Expr.weightDecls] at ih ⊢
        have := Nat.mul_le_mul_left (1 + (Pattern.tuple params).tests) ih
        simp only [Nat.mul_add, Nat.add_mul, Nat.one_mul] at this ⊢
        omega
    | value pattern body =>
      simp only [clausesOf, withoutClausesOf, List.filterMap_cons, List.filter_cons, if_true,
        Expr.weightDecls] at ih ⊢
      omega
    | data decl =>
      simpa only [clausesOf, withoutClausesOf, List.filterMap_cons, List.filter_cons, if_true,
        Expr.weightDecls] using ih

/-- Variables need no case of their own as parameters. -/
private theorem total_liftWeight_vars (names : List String) :
    total Pattern.liftWeight (names.map Pattern.var) = 0 := by
  induction names with
  | nil => rfl
  | cons name names ih => simpa using ih

/-- Variables weigh nothing as expressions. -/
private theorem weightList_vars (names : List String) :
    Expr.weightList (names.map Expr.var) = 0 := by
  induction names with
  | nil => rfl
  | cons name names ih => simpa [Expr.weightList, Expr.weight] using ih

/-- The value that clauses define weighs at most what the clauses put into the block. -/
private theorem weight_fusedValue_le (params : List Pattern) (body : Expr)
    (later : List (List Pattern × Expr)) (supply : FreshSupply) :
    (fusedValue params body later supply).1.weight
      ≤ params.length + body.weight + (1 + (Pattern.tuple params).tests)
          * Expr.weightArms (later.map fun (params, body) => ⟨.tuple params, body⟩) := by
  unfold fusedValue
  split
  · dsimp only
    omega
  · next h =>
    have hpos : params.length ≠ 0 := by simpa [List.isEmpty_iff] using h
    simp only [Expr.weight, total_liftWeight_vars, weightList_vars, List.length_map,
      FreshSupply.length_drawMany, List.map_cons, Expr.weightArms]
    omega

/-- Fusion lowers the weight of a block and does not lengthen it. -/
private theorem weight_fuseClauses_lt {options : SimplifyOptions} {supply supply' : FreshSupply}
    {decls decls' : List (Decl Expr)}
    (h : fuseClauses options supply decls = .ok (some (decls', supply'))) :
    Expr.weightDecls decls' < Expr.weightDecls decls ∧ decls'.length ≤ decls.length := by
  induction decls generalizing decls' supply' with
  | nil => simp [fuseClauses] at h
  | cons decl decls ih =>
    cases decl with
    | clause name params body =>
      simp only [fuseClauses] at h
      split at h
      · contradiction
      · simp only [Except.ok.injEq, Option.some.injEq, Prod.mk.injEq] at h
        obtain ⟨rfl, -⟩ := h
        -- the later clauses go into the arms of the value, the other declarations stay behind it
        have hvalue := weight_fusedValue_le params body (clausesOf name decls) supply
        have hrest := weightArms_clauses_le name decls
        have hscaled := Nat.mul_le_mul_left (1 + (Pattern.tuple params).tests) hrest
        have hlength : (withoutClausesOf name decls).length ≤ decls.length :=
          List.length_filter_le _ _
        simp only [Expr.weightDecls, Pattern.liftWeight_var, List.length_cons, Nat.mul_add,
          Nat.add_mul, Nat.one_mul] at hvalue hscaled ⊢
        omega
    -- any other declaration stays in front of what becomes of those behind it
    | value _ _ | data _ =>
      simp only [fuseClauses, Attempt.map] at h
      match hd : fuseClauses options supply decls with
      | .error _ => simp [hd, Except.map] at h
      | .ok none => simp [hd, Except.map] at h
      | .ok (some (rest, _)) =>
        simp only [hd, Except.map, Option.map_some, Except.ok.injEq, Option.some.injEq,
          Prod.mk.injEq] at h
        obtain ⟨rfl, -⟩ := h
        have := ih hd
        simp only [Expr.weightDecls, List.length_cons]
        omega

/-! ## Lambdas -/

/-- A function of one pattern at a time has no parameters left to split. -/
private theorem weight_curried (params : List Pattern) (body : Expr) :
    (params.foldr (fun param body => Expr.lam [param] body) body).weight
      = 2 * total Pattern.liftWeight params + body.weight := by
  induction params with
  | nil => simp
  | cons param params ih =>
    simp only [List.foldr_cons, Expr.weight, ih, total_cons, total_nil, List.length_singleton]
    omega

private theorem weight_curry_lt {e e' : Expr} (h : curry? e = some e') :
    e'.weight < e.weight := by
  unfold curry? at h
  split at h
  · obtain rfl := Option.some.inj h
    rw [weight_curried]
    simp only [Expr.weight, List.length_cons]
    omega
  · contradiction

private theorem weight_liftPattern_lt {supply supply' : FreshSupply} {e e' : Expr}
    (h : liftPattern? supply e = some (e', supply')) : e'.weight < e.weight := by
  unfold liftPattern? at h
  split at h
  · split at h
    · contradiction
    · next hvar =>
      simp only [Option.some.injEq, Prod.mk.injEq] at h
      obtain ⟨rfl, -⟩ := h
      simp only [Expr.lam1, Expr.weight, Expr.weightArms, Pattern.liftWeight_var,
        Pattern.liftWeight_of_isVar_eq_false (Bool.not_eq_true _ ▸ hvar), total_cons, total_nil,
        List.length_singleton, Nat.mul_zero]
      omega
  · contradiction

/-! ## Cases -/

/-- What can be copied weighs nothing. -/
private theorem weight_of_isCopyableLeaf {arms : List (Arm Expr)} {e : Expr}
    (h : isCopyableLeaf arms e = true) : e.weight = 0 := by
  cases e <;> simp_all [isCopyableLeaf, Expr.isConstant, Expr.weight]

/-- The same for a tuple of leaves. -/
private theorem weight_of_isCopyable {arms : List (Arm Expr)} {e : Expr}
    (h : isCopyable arms e = true) : e.weight = 0 := by
  unfold isCopyable at h
  split at h
  · next elements =>
    simp only [Expr.weight]
    induction elements with
    | nil => rfl
    | cons element elements ih =>
      simp only [List.all_cons, Bool.and_eq_true] at h
      simp [Expr.weightList, weight_of_isCopyableLeaf h.1, ih h.2]
  · exact weight_of_isCopyableLeaf h

/-- A chain of matches weighs at most what its arms do. -/
private theorem weight_matchChain_le (share : Bool) (scrutinee : Expr) (supply : FreshSupply)
    (arms : List (Arm Expr)) (h : scrutinee.weight = 0) :
    (matchChain share scrutinee supply arms).1.weight ≤ Expr.weightArms arms := by
  induction arms with
  | nil => simp [matchChain, Expr.bot, Expr.weight]
  | cons arm arms ih =>
    obtain ⟨pattern, body⟩ := arm
    have := Matching.weight_elaborate_le share pattern scrutinee body
      (matchChain share scrutinee supply arms).1 (matchChain share scrutinee supply arms).2 h
    have := Nat.mul_le_mul_left (1 + pattern.tests) ih
    simp only [matchChain, Expr.weightArms]
    omega

private theorem weight_expandCase_lt {share : Bool} {supply supply' : FreshSupply} {e e' : Expr}
    (h : expandCase? share supply e = some (e', supply')) : e'.weight < e.weight := by
  unfold expandCase? at h
  split at h
  · next scrutinee arms =>
    split at h
    · next hstable =>
      have := weight_matchChain_le share scrutinee supply arms (weight_of_isCopyable hstable)
      obtain rfl := congrArg Prod.fst (Option.some.inj h)
      simp only [Expr.weight]
      omega
    · have := weight_matchChain_le share (.var supply.draw.1) supply.draw.2 arms rfl
      simp only [Option.some.injEq, Prod.mk.injEq] at h
      obtain ⟨rfl, -⟩ := h
      simp only [Expr.app1, Expr.lam1, Expr.weight, Expr.weightList, Pattern.liftWeight_var,
        total_cons, total_nil, List.length_singleton]
      omega
  · contradiction

/-! ## Blocks -/

private theorem weight_flattenTuple_lt {supply supply' : FreshSupply} {e e' : Expr}
    (h : flattenTuple? supply e = some (e', supply')) : e'.weight < e.weight := by
  unfold flattenTuple? at h
  split at h
  · simp only [Option.some.injEq, Prod.mk.injEq] at h
    obtain ⟨rfl, -⟩ := h
    simp only [Expr.weight, Expr.weightDecls, Pattern.liftWeight_wildcard]
    omega
  · next pattern value body _ =>
    split at h
    · contradiction
    · next hpattern =>
      simp only [Bool.or_eq_true, not_or, Bool.not_eq_true] at hpattern
      simp only [Option.some.injEq, Prod.mk.injEq] at h
      obtain ⟨rfl, -⟩ := h
      have hvalue := Matching.weight_bindLazily_le pattern (.var supply.draw.1) value rfl
      have hbody := Matching.weight_bindLazily_le pattern (.var supply.draw.1) body rfl
      simp only [Expr.weight, Expr.weightDecls, Pattern.liftWeight_var,
        Pattern.liftWeight_of_isVar_eq_false hpattern.1, List.length_singleton]
      omega
  · contradiction

/-- The weight that a numbered binding brings into a block. -/
private def bindingWeight (binding : (Pattern × Expr) × Nat) : Nat :=
  binding.1.1.liftWeight + binding.1.2.weight

/-- The declaration of a group: joining several bindings costs the weight of one tuple pattern,
which their number pays for. -/
private theorem weight_groupDecl_le (members : List ((Pattern × Expr) × Nat))
    (h : members ≠ []) :
    2 * Expr.weightDecls [groupDecl (members.map Prod.fst)]
      ≤ 2 * total bindingWeight members + members.length := by
  have htotal : Expr.weightList ((members.map Prod.fst).map Prod.snd)
      ≤ total bindingWeight members := by
    clear h
    induction members with
    | nil => simp [Expr.weightList]
    | cons member members ih =>
      simp only [List.map_cons, Expr.weightList, total_cons, bindingWeight] at ih ⊢
      omega
  -- a group has no member, one, which stays as it is, or several, which become a tuple
  rcases members with _ | ⟨⟨⟨pattern, value⟩, number⟩, _ | ⟨⟨⟨_, _⟩, _⟩, members⟩⟩
  · contradiction
  · simp [groupDecl, Expr.weightDecls, bindingWeight]
  · simp only [groupDecl, List.map_cons, Expr.weightDecls, Expr.weight,
      Pattern.liftWeight_tuple, List.length_cons, Expr.weightList, total_cons,
      bindingWeight] at htotal ⊢
    omega

/-- What a test keeps and what it drops make up a list. -/
private theorem total_partition (p : (Pattern × Expr) × Nat → Bool)
    (left : List ((Pattern × Expr) × Nat)) :
    total bindingWeight (left.filter p) + total bindingWeight (left.filter (not ∘ p))
        = total bindingWeight left
      ∧ (left.filter p).length + (left.filter (not ∘ p)).length = left.length := by
  induction left with
  | nil => simp
  | cons binding left ih =>
    cases h : p binding <;>
      simp [h] at ih ⊢ <;> omega

/-- A nest of blocks weighs at most what its bindings do, with half a unit for each of them. -/
private theorem weight_nestBlocks_le (body : Expr) (groups : List (List Nat))
    (left : List ((Pattern × Expr) × Nat)) :
    2 * (nestBlocks body groups left).weight
      ≤ 2 * (total bindingWeight left + body.weight) + left.length := by
  induction groups generalizing left with
  | nil =>
    simp only [nestBlocks]
    omega
  | cons group groups ih =>
    have hpart := total_partition (fun binding => group.contains binding.2) left
    have hrest := ih (left.filter (not ∘ fun binding => group.contains binding.2))
    simp only [nestBlocks, List.partition_eq_filter_filter]
    split
    -- a group that has no member left makes no block
    · omega
    · next hmembers =>
      have hgroup := weight_groupDecl_le
        (left.filter fun binding => group.contains binding.2)
        (by simpa [List.isEmpty_iff] using hmembers)
      simp only [Expr.weight, List.length_singleton]
      omega

/-- The weight of a block of values, by its bindings. -/
private theorem weightDecls_values {decls : List (Decl Expr)}
    (h : (decls.all fun decl => decl.value?.isSome) = true) (start : Nat) :
    total bindingWeight ((decls.filterMap Decl.value?).zipIdx start)
        = Expr.weightDecls decls
      ∧ (decls.filterMap Decl.value?).length = decls.length := by
  induction decls generalizing start with
  | nil => simp [Expr.weightDecls]
  | cons decl decls ih =>
    cases decl with
    | value pattern body =>
      simp only [List.all_cons, Bool.and_eq_true] at h
      have := ih h.2 (start + 1)
      have hcons : (Decl.value pattern body :: decls).filterMap Decl.value?
          = (pattern, body) :: decls.filterMap Decl.value? := rfl
      simp only [hcons, List.zipIdx_cons, total_cons, bindingWeight,
        Expr.weightDecls, List.length_cons]
      omega
    | clause _ _ _ => simp [Decl.value?] at h
    | data _ => simp [Decl.value?] at h

private theorem weight_nestGroups_lt {e e' : Expr} (h : nestGroups? e = some e') :
    e'.weight < e.weight := by
  unfold nestGroups? at h
  split at h
  · next decls body =>
    split at h
    · next hdecls =>
      simp only [Bool.and_eq_true, decide_eq_true_eq] at hdecls
      obtain rfl := Option.some.inj h
      have hvalues := weightDecls_values hdecls.2 0
      have := weight_nestBlocks_le body
        (DependencyGraph.ofBindings (decls.filterMap Decl.value?)).groups
        (decls.filterMap Decl.value?).zipIdx
      rw [hvalues.1, List.length_zipIdx, hvalues.2] at this
      simp only [Expr.weight]
      omega
    · contradiction
  · contradiction

/-! ## All rules -/

/-- What a rule makes of an expression weighs less than the expression. -/
theorem Rule.weight_fire_lt {options : SimplifyOptions} {rule : Rule}
    {supply supply' : FreshSupply} {e e' : Expr}
    (h : rule.fire options supply e = .ok (some (e', supply'))) : e'.weight < e.weight := by
  cases rule with
  | clauseFusion =>
    simp only [Rule.fire] at h
    split at h
    · next decls body =>
      simp only [Attempt.map] at h
      match hd : fuseClauses options supply decls with
      | .error _ => simp [hd, Except.map] at h
      | .ok none => simp [hd, Except.map] at h
      | .ok (some (decls', _)) =>
        simp only [hd, Except.map, Option.map_some, Except.ok.injEq, Option.some.injEq,
          Prod.mk.injEq] at h
        obtain ⟨rfl, -⟩ := h
        have := weight_fuseClauses_lt hd
        simp only [Expr.weight]
        omega
    · simp at h
  | currying =>
    simp only [Rule.fire, Except.ok.injEq, Option.map_eq_some_iff, Prod.mk.injEq] at h
    obtain ⟨_, h, rfl, -⟩ := h
    exact weight_curry_lt h
  | patternLambda =>
    simp only [Rule.fire, Except.ok.injEq] at h
    exact weight_liftPattern_lt h
  | caseElimination =>
    simp only [Rule.fire, Except.ok.injEq] at h
    exact weight_expandCase_lt h
  | letTupleFlattening =>
    simp only [Rule.fire, Except.ok.injEq] at h
    exact weight_flattenTuple_lt h
  | groupNesting =>
    simp only [Rule.fire, Except.ok.injEq, Option.map_eq_some_iff, Prod.mk.injEq] at h
    obtain ⟨_, h, rfl, -⟩ := h
    exact weight_nestGroups_lt h

end Clausal
