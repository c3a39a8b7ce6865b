import Clausal.Proofs.FreshSupply
import Clausal.Proofs.Matching.Expansion

/-!
# Runs on blocks of functions

The first pass on a block of function clauses whose bodies have core expressions. What rules do to
such a block does not depend on the expression that it encloses, so the passes make the same values
of the functions for all such expressions. Clause fusion takes the functions one after the other, in
the order of their first clauses, and makes a case on fresh variables of each.

## Main results

* `fireFirst_letIn`: firing in a block of functions changes the declarations only;
* `toFixpoint_letIn`: runs on a block of functions go the same way for all enclosed expressions;
* `exists_fused`: what clause fusion makes of a block of functions.
-/

namespace Clausal

open Clausal.Expr

variable {options : SimplifyOptions} {rule : Rule} {rules : List Rule}
  {supply supply' : FreshSupply} {decls decls' : List (Decl Expr)}

/-! ## Firing in a block -/

namespace Decl

variable {β : Type}

/-- A clause, or a value by a variable. -/
def IsNamed : Decl β → Prop
  | .clause _ _ _ | .value (.var _) _ => True
  | _ => False

@[simp] theorem isNamed_outline (decl : Decl β) : decl.outline.IsNamed ↔ decl.IsNamed := by
  cases decl with
  | clause _ _ _ | data _ => exact Iff.rfl
  | value pattern _ => cases pattern <;> exact Iff.rfl

theorem isNamed_withBodies {decls : List (Decl β)} (h : ∀ decl ∈ decls, decl.IsNamed)
    (new : List β) : ∀ decl ∈ withBodies decls new, decl.IsNamed := by
  have houtline : ∀ decl ∈ (withBodies decls new).map outline, decl.IsNamed := by
    rw [outline_withBodies, List.forall_mem_map]
    exact fun decl hdecl => (isNamed_outline decl).2 (h decl hdecl)
  exact fun decl hdecl => (isNamed_outline decl).1 (houtline _ (List.mem_map_of_mem hdecl))

end Decl

/-- What a rule does to the declarations of a block. -/
def fireDecls (options : SimplifyOptions) (rule : Rule) (supply : FreshSupply)
    (decls : List (Decl Expr)) : Attempt (List (Decl Expr)) :=
  Attempt.orElse (if rule = .clauseFusion then fuseClauses options supply decls else .ok none)
    fun _ => fireFirstOfDecls (rule.fire options supply) decls

theorem flattenTuple?_of_isNamed (hdecls : ∀ decl ∈ decls, decl.IsNamed) (body : Expr) :
    flattenTuple? supply (.letIn decls body) = none := by
  rcases decls with _ | ⟨decl, _ | ⟨_, _⟩⟩
  · rfl
  · cases decl with
    | clause _ _ _ | data _ => rfl
    | value pattern _ =>
      cases pattern with
      | var _ => rfl
      | _ => exact (hdecls _ List.mem_cons_self).elim
  · rw [flattenTuple?]
    · rintro _ _ heq
      cases heq
    · rintro _ _ _ heq
      cases heq

/-- A rule that fires in a block of functions changes the declarations. -/
theorem fireFirst_letIn (hrule : rule ≠ .groupNesting) (hdecls : ∀ decl ∈ decls, decl.IsNamed)
    {body : Expr} (hbody : Grammar.core.Generates body) :
    fireFirst (rule.fire options supply) (.letIn decls body)
      = (fireDecls options rule supply decls).map (.letIn · body) := by
  have hroot : rule.fire options supply (.letIn decls body)
      = (if rule = .clauseFusion then fuseClauses options supply decls else .ok none).map
        (.letIn · body) := by
    cases rule with
    | clauseFusion | currying | patternLambda | caseElimination => rfl
    | groupNesting => contradiction
    | letTupleFlattening =>
      rw [Rule.fire, flattenTuple?_of_isNamed hdecls]
      rfl
  rw [fireFirst.eq_def, hroot, fireDecls, Attempt.map_orElse]
  dsimp only
  rw [fireFirst_of_core rule hbody, Attempt.map_none, Attempt.orElse_none]

/-- What is left of a block of functions is one. -/
theorem isNamed_fireDecls (hdecls : ∀ decl ∈ decls, decl.IsNamed) :
    (fireDecls options rule supply decls).Ensures fun decls' => ∀ decl ∈ decls', decl.IsNamed := by
  refine .orElse ?_ ?_
  · split
    · intro decls' supply' h
      obtain ⟨before, name, params, body, after, -, rfl, rfl, -⟩ := fuseClauses_eq_some h
      rw [List.forall_mem_append, List.forall_mem_cons] at hdecls ⊢
      refine ⟨hdecls.1, trivial, fun decl hdecl => hdecls.2.2 decl ?_⟩
      exact (withoutClausesOf_sublist name after).subset hdecl
    · exact .none
  · rw [fireFirstOfDecls_eq]
    intro decls' supply' h
    obtain ⟨new, -, rfl⟩ := Attempt.map_eq_some.1 h
    exact Decl.isNamed_withBodies hdecls new

/-- Blocks of functions with the same declarations around expressions that have core expressions. -/
def SameBlock (body body' e e' : Expr) : Prop :=
  ∃ decls : List (Decl Expr), (∀ decl ∈ decls, decl.IsNamed)
    ∧ e = .letIn decls body ∧ e' = .letIn decls body'

/-- Runs on a block of functions go the same way for all enclosed expressions. -/
theorem toFixpoint_letIn (hrules : .groupNesting ∉ rules) (hdecls : ∀ decl ∈ decls, decl.IsNamed)
    {body body' e : Expr} (hbody : Grammar.core.Generates body)
    (hbody' : Grammar.core.Generates body')
    (h : (toFixpoint options rules supply (.letIn decls body)).result = .ok (e, supply')) :
    ∃ decls' : List (Decl Expr), e = .letIn decls' body
      ∧ (toFixpoint options rules supply (.letIn decls body')).result
        = .ok (.letIn decls' body', supply') := by
  have hrelated : (toFixpoint options rules supply (.letIn decls body)).Related
      (SameBlock body body') (toFixpoint options rules supply (.letIn decls body')) := by
    -- the two blocks have the same declarations before every firing, and so after it
    refine toFixpoint_related ?_ ⟨decls, hdecls, rfl, rfl⟩
    rintro _ _ ⟨decls, hdecls, rfl, rfl⟩ rule hrule supply
    have hne : rule ≠ .groupNesting := fun heq => hrules (heq ▸ hrule)
    rw [fireFirst_letIn hne hdecls hbody, fireFirst_letIn hne hdecls hbody']
    have hnamed : (fireDecls options rule supply decls).Ensures _ := isNamed_fireDecls hdecls
    obtain ⟨error, heq⟩ | heq | ⟨decls', supply', heq⟩ :=
      (fireDecls options rule supply decls).eq_error_or_none_or_some
    · rw [heq]
      exact .error error
    · rw [heq]
      exact .none
    · rw [heq]
      exact .some supply' ⟨decls', hnamed decls' supply' heq, rfl, rfl⟩
  generalize toFixpoint options rules supply (.letIn decls body) = run at h hrelated
  generalize toFixpoint options rules supply (.letIn decls body') = run' at hrelated ⊢
  cases hrelated with
  | error _ _ => contradiction
  | ok fired supply hS =>
    cases h
    obtain ⟨decls', -, rfl, rfl⟩ := hS
    exact ⟨decls', rfl, rfl⟩

/-- A property of declarations and a supply that firing keeps holds after a run on a block, which
leaves nothing to do. -/
theorem exists_of_toFixpoint_letIn {P : List (Decl Expr) → FreshSupply → Prop}
    (hrules : .groupNesting ∉ rules)
    (hnamed : ∀ decls supply, P decls supply → ∀ decl ∈ decls, decl.IsNamed)
    (hstep : ∀ rule ∈ rules, ∀ decls supply decls' supply', P decls supply →
      fireDecls options rule supply decls = .ok (some (decls', supply')) → P decls' supply')
    {body e : Expr} (hbody : Grammar.core.Generates body) (h : P decls supply)
    (hresult : (toFixpoint options rules supply (.letIn decls body)).result = .ok (e, supply')) :
    ∃ decls', e = .letIn decls' body ∧ P decls' supply' := by
  obtain ⟨hsteps, -⟩ := toFixpoint_eq_ok hresult
  generalize hafter : (e, supply') = after at hsteps
  have hstate : ∃ decls', after.1 = .letIn decls' body ∧ P decls' after.2 := by
    clear hafter
    induction hsteps with
    | refl => exact ⟨decls, rfl, h⟩
    | tail _ hfire ih =>
      obtain ⟨decls', heq, hP⟩ := ih
      obtain ⟨rule, hrule, hfire⟩ := hfire
      rw [heq, fireFirst_letIn (fun heq => hrules (heq ▸ hrule)) (hnamed _ _ hP) hbody] at hfire
      obtain ⟨decls'', hfire, hbody⟩ := Attempt.map_eq_some.1 hfire
      exact ⟨decls'', hbody.symm, hstep rule hrule _ _ _ _ hP hfire⟩
  rw [← hafter] at hstate
  exact hstate

/-! ## Blocks of functions -/

/-- Declarations of functions by clauses: each clause has patterns, as many as the other clauses of
its name, and a right-hand side that has a core expression. -/
structure FunctionClauses (decls : List (Decl Expr)) : Prop where
  isClause : ∀ decl ∈ decls, ∃ name params body, decl = .clause name params body
  ne_nil : ∀ name, ∀ clause ∈ clausesOf name decls, clause.1 ≠ []
  length_eq : ∀ name, ∀ clause ∈ clausesOf name decls, ∀ other ∈ clausesOf name decls,
    other.1.length = clause.1.length
  exists_core : ∀ name, ∀ clause ∈ clausesOf name decls, ∃ core, Core.ofExpr clause.2 = .ok core

namespace FunctionClauses

variable (h : FunctionClauses decls)

include h

theorem generates {name : String} {clause : List Pattern × Expr}
    (hclause : clause ∈ clausesOf name decls) : Grammar.core.Generates clause.2 :=
  Core.exists_ofExpr_eq_ok_iff.1 (h.exists_core name clause hclause)

theorem isNamed : ∀ decl ∈ decls, decl.IsNamed := by
  intro decl hdecl
  obtain ⟨name, params, body, rfl⟩ := h.isClause decl hdecl
  trivial

theorem clausesAgree : Decl.ClausesAgree decls := by
  refine List.pairwise_of_forall_mem_list ?_
  rintro ⟨name, first⟩ hfirst ⟨_, other⟩ hother rfl
  have hclauses {count : Nat} (hcount : (name, count) ∈ decls.filterMap Decl.arity?) :
      ∃ clause ∈ clausesOf name decls, clause.1.length = count := by
    obtain ⟨decl, hdecl, harity⟩ := List.mem_filterMap.1 hcount
    obtain ⟨_, params, body, rfl⟩ := h.isClause decl hdecl
    cases harity
    exact ⟨(params, body), mem_clausesOf.2 hdecl, rfl⟩
  obtain ⟨clause, hclause, rfl⟩ := hclauses hfirst
  obtain ⟨clause', hclause', rfl⟩ := hclauses hother
  refine ⟨h.length_eq name clause hclause clause' hclause', fun hzero => ?_⟩
  exact h.ne_nil name clause hclause (List.length_eq_zero_iff.1 hzero)

end FunctionClauses

/-- The clauses of other functions than the given ones. -/
def clausesLeft (names : List String) (decls : List (Decl Expr)) : List (Decl Expr) :=
  decls.filter fun decl => !decl.boundNames.any names.contains

theorem mem_clausesLeft {names : List String} {name : String} {params : List Pattern}
    {body : Expr} :
    .clause name params body ∈ clausesLeft names decls
      ↔ .clause name params body ∈ decls ∧ name ∉ names := by
  simp [clausesLeft, Decl.boundNames]

theorem clausesLeft_nil (decls : List (Decl Expr)) : clausesLeft [] decls = decls :=
  List.filter_eq_self.2 fun decl _ => by simp

/-- The clauses of a function that is left are left. -/
theorem clausesOf_clausesLeft {names : List String} {name : String} (h : name ∉ names) :
    clausesOf name (clausesLeft names decls) = clausesOf name decls := by
  rw [clausesOf, clausesLeft, List.filterMap_filter, clausesOf]
  refine List.filterMap_congr fun decl _ => ?_
  cases decl with
  | clause other params body =>
    by_cases heq : other = name
    · simp [Decl.boundNames, heq, h]
    · simp [heq]
  | value _ _ | data _ => simp

theorem withoutClausesOf_clausesLeft (h : FunctionClauses decls) (names : List String)
    (name : String) :
    withoutClausesOf name (clausesLeft names decls) = clausesLeft (names ++ [name]) decls := by
  rw [withoutClausesOf, clausesLeft, List.filter_filter, clausesLeft]
  refine List.filter_congr fun decl hdecl => ?_
  obtain ⟨other, params, body, rfl⟩ := h.isClause decl hdecl
  by_cases heq : other = name <;> by_cases hmem : other ∈ names <;>
    simp [Decl.boundNames, heq, hmem]

/-- The function of some variables that matches them with the patterns of each clause in turn. -/
def fusedFunction (names : List String) (clauses : List (List Pattern × Expr)) : Expr :=
  .lam (names.map .var) (.caseOf (.tuple (names.map .var)) (armsOf clauses))

theorem fusedValue_eq {params : List Pattern} (h : params ≠ []) (body : Expr)
    (later : List (List Pattern × Expr)) (supply : FreshSupply) :
    fusedValue params body later supply
      = (fusedFunction (supply.drawMany params.length).1 ((params, body) :: later),
        (supply.drawMany params.length).2) := by
  rw [fusedValue, if_neg (by simpa using h)]
  rfl

/-- Some functions of a block, each with variables of its own. -/
def fused (decls : List (Decl Expr)) (functions : List (String × List String)) :
    List (Decl Expr) :=
  valueDecls (functions.map fun function =>
    (.var function.1, fusedFunction function.2 (clausesOf function.1 decls)))

/-- A block in which some functions are fused. -/
def fusing (decls : List (Decl Expr)) (functions : List (String × List String)) :
    List (Decl Expr) :=
  fused decls functions ++ clausesLeft (functions.map Prod.fst) decls

theorem FunctionClauses.isNamed_fusing (h : FunctionClauses decls)
    (functions : List (String × List String)) : ∀ decl ∈ fusing decls functions, decl.IsNamed := by
  refine List.forall_mem_append.2 ⟨?_, fun decl hdecl => ?_⟩
  · exact List.forall_mem_map.2 (List.forall_mem_map.2 fun _ _ => trivial)
  · exact h.isNamed decl (List.mem_of_mem_filter hdecl)

/-- What is known while functions are fused: each function is a different one with clauses, and its
variables are as many as its clauses have patterns, and were drawn for it. -/
structure Fusing (decls : List (Decl Expr)) (start : FreshSupply)
    (functions : List (String × List String)) (supply : FreshSupply) : Prop where
  nodup : (functions.map Prod.fst).Nodup
  ne_nil : ∀ function ∈ functions, clausesOf function.1 decls ≠ []
  arity : ∀ function ∈ functions, ∀ clause ∈ clausesOf function.1 decls,
    clause.1.length = function.2.length
  nodup_names : ∀ function ∈ functions, function.2.Nodup
  drawn : ∀ function ∈ functions, ∀ name ∈ function.2, DrawnFrom start.next supply.next name
  start_le : start.next ≤ supply.next

theorem fuseClauses_valueDecls_append (bindings : List (Pattern × Expr))
    (decls : List (Decl Expr)) :
    fuseClauses options supply (valueDecls bindings ++ decls)
      = (fuseClauses options supply decls).map (valueDecls bindings ++ ·) := by
  induction bindings with
  | nil =>
    obtain ⟨error, h⟩ | h | ⟨decls', supply', h⟩ :=
      (fuseClauses options supply decls).eq_error_or_none_or_some <;> simp [h, valueDecls]
  | cons binding bindings ih =>
    rw [valueDecls, List.map_cons, List.cons_append, fuseClauses, ← valueDecls, ih,
      Attempt.map_map]
    · rfl
    · rintro _ _ _ heq
      cases heq

/-- Where the scrutinee and the arms of a case have core expressions, only the case may fire. -/
theorem fireFirst_caseOf {scrutinee : Expr} {arms : List (Arm Expr)}
    (hscrutinee : Grammar.core.Generates scrutinee)
    (harms : ∀ arm ∈ arms, Grammar.core.Generates arm.body) :
    fireFirst (rule.fire options supply) (.caseOf scrutinee arms)
      = rule.fire options supply (.caseOf scrutinee arms) := by
  have hnone : fireFirstOfArms (rule.fire options supply) arms = .ok none := by
    rw [fireFirstOfArms_eq, Attempt.map_eq_none, fireFirstOf_eq_none_iff, List.forall_mem_map]
    exact fun arm harm => fireFirst_of_core rule (harms arm harm)
  rw [fireFirst.eq_def]
  dsimp only
  rw [fireFirst_of_core rule hscrutinee, hnone, Attempt.map_none, Attempt.map_none,
    Attempt.none_orElse, Attempt.orElse_none]

theorem generates_tuple_var (names : List String) :
    Grammar.core.Generates (.tuple (names.map .var)) :=
  Grammar.generates_tuple.2 (List.forall_mem_map.2 fun name _ => Grammar.generates_var name)

/-- Nothing is fused within a block of functions. -/
theorem fireFirstOfDecls_fusing (h : FunctionClauses decls)
    (functions : List (String × List String)) :
    fireFirstOfDecls (Rule.clauseFusion.fire options supply) (fusing decls functions)
      = .ok none := by
  rw [fireFirstOfDecls_eq, Attempt.map_eq_none, fireFirstOf_eq_none_iff]
  intro value hvalue
  obtain ⟨decl, hdecl, hbody⟩ := List.mem_filterMap.1 hvalue
  rcases List.mem_append.1 hdecl with hdecl | hdecl
  · obtain ⟨_, hbinding, rfl⟩ := List.mem_map.1 hdecl
    obtain ⟨function, -, rfl⟩ := List.mem_map.1 hbinding
    obtain rfl := Option.some.inj hbody
    have harms : ∀ arm ∈ armsOf (clausesOf function.1 decls), Grammar.core.Generates arm.body :=
      List.forall_mem_map.2 fun _ hclause => h.generates hclause
    rw [fusedFunction, fireFirst.eq_def]
    dsimp only
    rw [fireFirst_caseOf (generates_tuple_var _) harms]
    rfl
  · obtain ⟨name, params, body, rfl⟩ := h.isClause decl (List.mem_of_mem_filter hdecl)
    obtain rfl := Option.some.inj hbody
    have hclause : (params, body) ∈ clausesOf name decls :=
      mem_clausesOf.2 (List.mem_of_mem_filter hdecl)
    exact fireFirst_of_core _ (h.generates hclause)

namespace Fusing

variable {start : FreshSupply} {functions : List (String × List String)}

theorem nil (decls : List (Decl Expr)) (supply : FreshSupply) : Fusing decls supply [] supply where
  nodup := List.nodup_nil
  ne_nil := nofun
  arity := nofun
  nodup_names := nofun
  drawn := nofun
  start_le := Nat.le_refl _

/-- One more function may be fused, the one whose clause is the first left. -/
theorem snoc (hdecls : FunctionClauses decls) (h : Fusing decls start functions supply)
    {name : String} {params : List Pattern} {body : Expr} {rest : List (Decl Expr)}
    (hleft : clausesLeft (functions.map Prod.fst) decls = .clause name params body :: rest)
    (hclauses : clausesOf name decls = (params, body) :: clausesOf name rest) :
    Fusing decls start (functions ++ [(name, (supply.drawMany params.length).1)])
      (supply.drawMany params.length).2 := by
  have hmem : Decl.clause name params body ∈ clausesLeft (functions.map Prod.fst) decls :=
    hleft ▸ List.mem_cons_self
  obtain ⟨hmem, hname⟩ := mem_clausesLeft.1 hmem
  have hclause : (params, body) ∈ clausesOf name decls := mem_clausesOf.2 hmem
  constructor
  case nodup =>
    rw [List.map_append, List.map_singleton]
    exact h.nodup.append (List.nodup_singleton name) (by simpa using hname)
  case ne_nil =>
    rw [List.forall_mem_append, List.forall_mem_singleton, hclauses]
    exact ⟨h.ne_nil, List.cons_ne_nil _ _⟩
  case arity =>
    rw [List.forall_mem_append, List.forall_mem_singleton, FreshSupply.length_drawMany]
    exact ⟨h.arity, hdecls.length_eq name _ hclause⟩
  case nodup_names =>
    rw [List.forall_mem_append, List.forall_mem_singleton]
    exact ⟨h.nodup_names, supply.nodup_drawMany params.length⟩
  case drawn =>
    rw [List.forall_mem_append, List.forall_mem_singleton]
    refine ⟨fun function hfunction other hother => ?_, fun other hother => ?_⟩
    · exact (h.drawn function hfunction other hother).mono (Nat.le_refl _) (Nat.le_add_right _ _)
    · obtain ⟨number, hle, hlt, rfl⟩ := FreshSupply.mem_drawMany hother
      exact ⟨number, h.start_le.trans hle, hlt, rfl⟩
  case start_le => exact h.start_le.trans (Nat.le_add_right _ _)

/-- One more function is fused. -/
theorem step (hdecls : FunctionClauses decls) (h : Fusing decls start functions supply)
    (hfire : fireDecls options .clauseFusion supply (fusing decls functions)
      = .ok (some (decls', supply'))) :
    ∃ functions', decls' = fusing decls functions' ∧ Fusing decls start functions' supply' := by
  rw [fireDecls, if_pos rfl, fireFirstOfDecls_fusing hdecls, Attempt.orElse_none, fusing, fused,
    fuseClauses_valueDecls_append, Attempt.map_eq_some] at hfire
  obtain ⟨left, hfuse, rfl⟩ := hfire
  cases hleft : clausesLeft (functions.map Prod.fst) decls with
  | nil =>
    rw [hleft, fuseClauses] at hfuse
    cases hfuse
  | cons decl rest =>
    have hmem : decl ∈ clausesLeft (functions.map Prod.fst) decls := hleft ▸ List.mem_cons_self
    obtain ⟨name, params, body, rfl⟩ := hdecls.isClause decl (List.mem_of_mem_filter hmem)
    obtain ⟨hmem, hname⟩ := mem_clausesLeft.1 hmem
    have hclauses : clausesOf name decls = (params, body) :: clausesOf name rest := by
      rw [← clausesOf_clausesLeft hname, hleft, clausesOf, List.filterMap_cons]
      simp only [if_true]
      rfl
    have hparams : params ≠ [] := hdecls.ne_nil name _ (mem_clausesOf.2 hmem)
    have hrest : withoutClausesOf name rest
        = clausesLeft ((functions ++ [(name, (supply.drawMany params.length).1)]).map Prod.fst)
          decls := by
      rw [List.map_append, List.map_singleton, ← withoutClausesOf_clausesLeft hdecls, hleft,
        withoutClausesOf, withoutClausesOf, List.filter_cons]
      simp
    rw [hleft, fuseClauses] at hfuse
    dsimp only at hfuse
    split at hfuse
    · contradiction
    rw [fusedValue_eq hparams, ← hclauses, hrest] at hfuse
    cases hfuse
    refine ⟨functions ++ [(name, (supply.drawMany params.length).1)], ?_,
      h.snoc hdecls hleft hclauses⟩
    simp only [fusing, fused, valueDecls, List.map_append, List.map_cons, List.map_nil,
      List.append_assoc, List.cons_append, List.nil_append]

end Fusing

/-- A core expression is among the expressions that compile. -/
theorem Grammar.Generates.source {e : Expr} (h : Grammar.core.Generates e) :
    (Grammar.source options).Generates e := by
  refine h.imp fun c hc => ?_
  cases c with
  | lam params body =>
    obtain ⟨name, rfl⟩ := hc
    exact List.cons_ne_nil _ _
  | letIn decls body =>
    obtain hnil | ⟨name, hname⟩ := hc
    · rw [Admits, Grammar.source, hnil]
      exact ⟨List.forall_mem_nil _, .inr .nil⟩
    · rw [Admits, Grammar.source, hname]
      exact ⟨List.forall_mem_singleton.2 rfl, .inr .nil⟩
  | _ => trivial

/-- A block of functions is among the expressions that compile. -/
theorem FunctionClauses.generates_letIn (h : FunctionClauses decls) (options : SimplifyOptions)
    {body : Expr} (hbody : Grammar.core.Generates body) :
    (Grammar.source options).Generates (.letIn decls body) := by
  refine Grammar.generates_letIn.2 ⟨⟨?_, .inr ?_⟩, ?_, hbody.source⟩
  · rw [List.forall_mem_map]
    intro decl hdecl
    obtain ⟨name, params, body, rfl⟩ := h.isClause decl hdecl
    trivial
  · rw [Decl.clausesAgree_outline]
    exact h.clausesAgree
  · intro value hvalue
    obtain ⟨decl, hdecl, hbody⟩ := List.mem_filterMap.1 hvalue
    obtain ⟨name, params, body, rfl⟩ := h.isClause decl hdecl
    obtain rfl := Option.some.inj hbody
    have hclause : (params, body) ∈ clausesOf name decls := mem_clausesOf.2 hdecl
    exact (h.generates hclause).source

/-- Clause fusion makes one function of the clauses of each name, whatever the expression that the
block encloses. -/
theorem exists_fused (h : FunctionClauses decls) (options : SimplifyOptions)
    (supply : FreshSupply) :
    ∃ functions supply', Fusing decls supply functions supply'
      ∧ (∀ name, clausesOf name decls ≠ [] → name ∈ functions.map Prod.fst)
      ∧ ∀ body, Grammar.core.Generates body →
        (toFixpoint options Pass.clauseFusion.rules supply (.letIn decls body)).result
          = .ok (.letIn (fused decls functions) body, supply') := by
  have hrules : Rule.groupNesting ∉ Pass.clauseFusion.rules := by decide
  have hbot : Grammar.core.Generates bot := Grammar.generates_prim _
  obtain ⟨e, supply', hresult, hfused⟩ :=
    Pass.clauseFusion.toFixpoint_generates supply (h.generates_letIn options hbot)
  have hstep (rule : Rule) (hrule : rule ∈ Pass.clauseFusion.rules) (decls₁ : List (Decl Expr))
      (supply₁ : FreshSupply) (decls₂ : List (Decl Expr)) (supply₂ : FreshSupply)
      (hfusing : ∃ functions, decls₁ = fusing decls functions
        ∧ Fusing decls supply functions supply₁)
      (hfire : fireDecls options rule supply₁ decls₁ = .ok (some (decls₂, supply₂))) :
      ∃ functions, decls₂ = fusing decls functions ∧ Fusing decls supply functions supply₂ := by
    obtain ⟨functions, rfl, hfusing⟩ := hfusing
    obtain rfl := List.mem_singleton.1 hrule
    exact hfusing.step h hfire
  obtain ⟨decls', rfl, functions, rfl, hfusing⟩ := exists_of_toFixpoint_letIn hrules
    (fun _ _ ⟨functions, heq, _⟩ => heq ▸ h.isNamed_fusing functions) hstep hbot
    ⟨[], (clausesLeft_nil decls).symm, Fusing.nil decls supply⟩ hresult
  -- no clause is left where clause fusion has ended
  have hleft : clausesLeft (functions.map Prod.fst) decls = [] := by
    refine List.eq_nil_iff_forall_not_mem.2 fun decl hdecl => ?_
    obtain ⟨name, params, body, rfl⟩ := h.isClause decl (List.mem_of_mem_filter hdecl)
    exact (Grammar.generates_letIn.1 hfused).1 _
      (List.mem_map.2 ⟨_, List.mem_append_right _ hdecl, rfl⟩)
  refine ⟨functions, supply', hfusing, fun name hname => ?_, fun body hbody => ?_⟩
  · by_contra hmem
    rw [← clausesOf_clausesLeft hmem, hleft] at hname
    exact hname rfl
  · obtain ⟨_, hblock, hrun⟩ := toFixpoint_letIn hrules h.isNamed hbot hbody hresult
    cases hblock
    rw [hrun, fusing, hleft, List.append_nil]

end Clausal
