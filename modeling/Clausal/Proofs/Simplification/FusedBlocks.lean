import Clausal.Proofs.Simplification.Agreement
import Clausal.Proofs.Simplification.CommonFixpoint
import Clausal.Proofs.Simplification.Fusion
import Clausal.Proofs.Simplification.Names

/-!
# What clause fusion makes of an expression

A block after clause fusion, as a whole: each name with clauses has one value, where its first
clause stood, and all other declarations are where they were. The value of a name with patterns is a
function of fresh variables, with an arm for each clause, in order; the right-hand sides are fused
in turn, wherever they have moved to.

Fusion gets there by many firings, each of one name in one block, and starts over from the root
after each. The relation `Fused` between an expression and its fused form is followed backwards
along the run: what is fused after a firing is fused of what was there before it.

## Main results

* `leaders`: the declarations that have a place in the fused block;
* `Fused`: an expression and its fused form, with the variables of the functions in it;
* `Fused.of_fireFirst`: a firing does not change the fused form;
* `toFixpoint_fused`: fusion comes to the fused form, with different fresh variables.
-/

namespace Clausal

open Clausal.Expr

variable {options : SimplifyOptions} {supply supply' : FreshSupply} {e e' : Expr}
  {es new : List Expr} {block decls decls' : List (Decl Expr)} {drawn : Multiset String}

/-! ## Declarations that have a place -/

/-- The declarations of a block without the clauses of a name that come after its first one. -/
def leaders : List (Decl Expr) → List (Decl Expr)
  | [] => []
  | .clause name params body :: decls =>
    .clause name params body :: leaders (withoutClausesOf name decls)
  | .value pattern value :: decls => .value pattern value :: leaders decls
  | .data decl :: decls => .data decl :: leaders decls
termination_by decls => decls.length
decreasing_by
  · exact Nat.lt_succ_of_le (withoutClausesOf_sublist name decls).length_le
  · exact Nat.lt_succ_self _
  · exact Nat.lt_succ_self _

theorem leaders_sublist (decls : List (Decl Expr)) : (leaders decls).Sublist decls := by
  induction decls using leaders.induct with
  | case1 => rw [leaders]
  | case2 name params body decls ih =>
    rw [leaders]
    exact (ih.trans (withoutClausesOf_sublist name decls)).cons_cons _
  | case3 _ _ _ ih | case4 _ _ ih =>
    rw [leaders]
    exact ih.cons_cons _

/-- What stands before the first clause of a block keeps its place. -/
theorem leaders_append {before : List (Decl Expr)} (h : before.filterMap Decl.arity? = [])
    (decls : List (Decl Expr)) : leaders (before ++ decls) = before ++ leaders decls := by
  induction before with
  | nil => rfl
  | cons decl before ih =>
    cases decl with
    | clause _ _ _ => simp [Decl.arity?] at h
    | value _ _ | data _ =>
      rw [List.filterMap_cons_none rfl] at h
      rw [List.cons_append, leaders, ih h, List.cons_append]

/-! ## Fused expressions -/

mutual

/-- Whether an expression is the fused form of another. The variables are those of the functions
that have been made, each as often as it was used for one. -/
inductive Fused : Expr → Expr → Multiset String → Prop
  /-- Any node but a block keeps its form. -/
  | node {e : Expr} {new : List Expr} {drawn : Multiset String} :
    (∀ decls body, e ≠ .letIn decls body) → FusedAll e.children new drawn →
    Fused e (e.withChildren new) drawn
  /-- The declarations of a block with a place are fused there. -/
  | letIn {decls decls' : List (Decl Expr)} {body body' : Expr} {drawn drawn' : Multiset String} :
    FusedDecls decls (leaders decls) decls' drawn → Fused body body' drawn' →
    Fused (.letIn decls body) (.letIn decls' body') (drawn + drawn')

/-- The same for the expressions at the same places of two lists. -/
inductive FusedAll : List Expr → List Expr → Multiset String → Prop
  | nil : FusedAll [] [] 0
  | cons {e e' : Expr} {es es' : List Expr} {drawn drawn' : Multiset String} :
    Fused e e' drawn → FusedAll es es' drawn' → FusedAll (e :: es) (e' :: es') (drawn + drawn')

/-- Whether declarations are the fused forms of declarations of a block. -/
inductive FusedDecls :
    List (Decl Expr) → List (Decl Expr) → List (Decl Expr) → Multiset String → Prop
  | nil {block : List (Decl Expr)} : FusedDecls block [] [] 0
  | data {block decls decls' : List (Decl Expr)} {drawn : Multiset String} (decl : DataDecl) :
    FusedDecls block decls decls' drawn →
    FusedDecls block (.data decl :: decls) (.data decl :: decls') drawn
  /-- A value keeps its pattern. -/
  | value {block decls decls' : List (Decl Expr)} {value value' : Expr}
      {drawn drawn' : Multiset String} (pattern : Pattern) :
    Fused value value' drawn → FusedDecls block decls decls' drawn' →
    FusedDecls block (.value pattern value :: decls) (.value pattern value' :: decls')
      (drawn + drawn')
  /-- A clause without patterns is the only one of its name, which becomes its right-hand side. -/
  | constant {block decls decls' : List (Decl Expr)} {name : String} {body body' : Expr}
      {drawn drawn' : Multiset String} : clausesOf name block = [([], body)] →
    Fused body body' drawn → FusedDecls block decls decls' drawn' →
    FusedDecls block (.clause name [] body :: decls) (.value (.var name) body' :: decls')
      (drawn + drawn')
  /-- A name becomes the function of as many variables as each of its clauses has patterns, which
  matches the tuple of them with the patterns of all its clauses, in order. -/
  | function {block decls decls' : List (Decl Expr)} {name : String} {params : List Pattern}
      {body : Expr} {names : List String} {bodies : List Expr} {drawn drawn' : Multiset String} :
    params ≠ [] → (∀ clause ∈ clausesOf name block, clause.1.length = names.length) →
    FusedAll ((clausesOf name block).map Prod.snd) bodies drawn →
    FusedDecls block decls decls' drawn' →
    FusedDecls block (.clause name params body :: decls)
      (.value (.var name)
          (fusedFunction names (((clausesOf name block).map Prod.fst).zip bodies)) :: decls')
      (names + drawn + drawn')

end

/-! ## Lists of expressions -/

namespace FusedAll

variable {es' new' : List Expr} {drawn' : Multiset String}

theorem append (h : FusedAll es new drawn) (h' : FusedAll es' new' drawn') :
    FusedAll (es ++ es') (new ++ new') (drawn + drawn') := by
  induction es generalizing new drawn with
  | nil =>
    cases h
    rwa [zero_add]
  | cons e es ih =>
    cases h with
    | cons hfirst hrest =>
      rw [add_assoc]
      exact .cons hfirst (ih hrest)

theorem of_forall (h : ∀ e ∈ es, Fused e e 0) : FusedAll es es 0 := by
  induction es with
  | nil => exact .nil
  | cons e es ih =>
    obtain ⟨hfirst, hrest⟩ := List.forall_mem_cons.1 h
    exact .cons hfirst (ih hrest)

theorem exists_of_append (h : FusedAll (es ++ es') new drawn) :
    ∃ first rest drawn₁ drawn₂, FusedAll es first drawn₁ ∧ FusedAll es' rest drawn₂
      ∧ new = first ++ rest ∧ drawn = drawn₁ + drawn₂ := by
  induction es generalizing new drawn with
  | nil => exact ⟨[], new, 0, drawn, .nil, h, rfl, (zero_add drawn).symm⟩
  | cons e es ih =>
    cases h with
    | cons hfirst hrest =>
      obtain ⟨first, rest, drawn₁, drawn₂, h₁, h₂, rfl, rfl⟩ := ih hrest
      exact ⟨_, rest, _, drawn₂, .cons hfirst h₁, h₂, rfl, (add_assoc ..).symm⟩

theorem length_eq (h : FusedAll es new drawn) : new.length = es.length := by
  induction es generalizing new drawn with
  | nil =>
    cases h
    rfl
  | cons e es ih =>
    cases h with
    | cons _ hrest => exact congrArg Nat.succ (ih hrest)

end FusedAll

/-! ## Declarations -/

namespace FusedDecls

theorem append {rest rest' : List (Decl Expr)} {drawn' : Multiset String}
    (h : FusedDecls block decls decls' drawn) (h' : FusedDecls block rest rest' drawn') :
    FusedDecls block (decls ++ rest) (decls' ++ rest') (drawn + drawn') := by
  induction decls generalizing decls' drawn with
  | nil =>
    cases h
    rwa [zero_add]
  | cons decl decls ih =>
    cases h with
    | data decl hrest => exact .data decl (ih hrest)
    | value pattern hvalue hrest =>
      rw [add_assoc]
      exact .value pattern hvalue (ih hrest)
    | constant hclauses hbody hrest =>
      rw [add_assoc]
      exact .constant hclauses hbody (ih hrest)
    | function hne hlength hbodies hrest =>
      rw [add_assoc]
      exact .function hne hlength hbodies (ih hrest)

theorem exists_of_append {before rest : List (Decl Expr)}
    (h : FusedDecls block (before ++ rest) decls' drawn) :
    ∃ before' rest' drawn₁ drawn₂, FusedDecls block before before' drawn₁
      ∧ FusedDecls block rest rest' drawn₂ ∧ decls' = before' ++ rest'
      ∧ drawn = drawn₁ + drawn₂ := by
  induction before generalizing decls' drawn with
  | nil => exact ⟨[], decls', 0, drawn, .nil, h, rfl, (zero_add drawn).symm⟩
  | cons decl before ih =>
    cases h with
    | data decl h =>
      obtain ⟨before', rest', drawn₁, drawn₂, h₁, h₂, rfl, rfl⟩ := ih h
      exact ⟨_, rest', _, drawn₂, .data decl h₁, h₂, rfl, rfl⟩
    | value pattern hvalue h =>
      obtain ⟨before', rest', drawn₁, drawn₂, h₁, h₂, rfl, rfl⟩ := ih h
      exact ⟨_, rest', _, drawn₂, .value pattern hvalue h₁, h₂, rfl, (add_assoc ..).symm⟩
    | constant hclauses hbody h =>
      obtain ⟨before', rest', drawn₁, drawn₂, h₁, h₂, rfl, rfl⟩ := ih h
      exact ⟨_, rest', _, drawn₂, .constant hclauses hbody h₁, h₂, rfl, (add_assoc ..).symm⟩
    | function hne hlength hbodies h =>
      obtain ⟨before', rest', drawn₁, drawn₂, h₁, h₂, rfl, rfl⟩ := ih h
      exact ⟨_, rest', _, drawn₂, .function hne hlength hbodies h₁, h₂, rfl, (add_assoc ..).symm⟩

/-- What clauses become depends on the clauses of their names only. -/
theorem congr {block' : List (Decl Expr)} (h : FusedDecls block decls decls' drawn)
    (hblock : ∀ name params body, .clause name params body ∈ decls →
      clausesOf name block = clausesOf name block') : FusedDecls block' decls decls' drawn := by
  induction decls generalizing decls' drawn with
  | nil =>
    cases h
    exact .nil
  | cons decl decls ih =>
    have hrest : ∀ name params body, .clause name params body ∈ decls →
        clausesOf name block = clausesOf name block' :=
      fun name params body hmem => hblock name params body (List.mem_cons_of_mem _ hmem)
    cases h with
    | data decl h => exact .data decl (ih h hrest)
    | value pattern hvalue h => exact .value pattern hvalue (ih h hrest)
    | constant hclauses hbody h =>
      rw [hblock _ _ _ List.mem_cons_self] at hclauses
      exact .constant hclauses hbody (ih h hrest)
    | function hne hlength hbodies h =>
      rw [hblock _ _ _ List.mem_cons_self] at hlength hbodies ⊢
      exact .function hne hlength hbodies (ih h hrest)

end FusedDecls

/-- Declarations without clauses keep their form. -/
theorem fusedDecls_iff_of_unclaused (h : decls.filterMap Decl.arity? = []) :
    FusedDecls block decls decls' drawn
      ↔ ∃ new, FusedAll (Decl.bodies decls) new drawn ∧ decls' = Decl.withBodies decls new := by
  induction decls generalizing decls' drawn with
  | nil =>
    constructor
    · intro h
      cases h
      exact ⟨[], .nil, rfl⟩
    · rintro ⟨new, hnew, rfl⟩
      cases hnew
      exact .nil
  | cons decl decls ih =>
    cases decl with
    | clause _ _ _ => simp [Decl.arity?] at h
    | value pattern value =>
      rw [List.filterMap_cons_none rfl] at h
      constructor
      · intro h'
        cases h' with
        | value _ hvalue hrest =>
          obtain ⟨new, hnew, rfl⟩ := (ih h).1 hrest
          exact ⟨_, .cons hvalue hnew, rfl⟩
      · rintro ⟨new, hnew, rfl⟩
        cases hnew with
        | cons hvalue hrest => exact .value pattern hvalue ((ih h).2 ⟨_, hrest, rfl⟩)
    | data decl =>
      rw [List.filterMap_cons_none rfl] at h
      constructor
      · intro h'
        cases h' with
        | data _ hrest =>
          obtain ⟨new, hnew, rfl⟩ := (ih h).1 hrest
          exact ⟨_, hnew, rfl⟩
      · rintro ⟨new, hnew, rfl⟩
        exact .data decl ((ih h).2 ⟨_, hnew, rfl⟩)

/-! ## Nodes that are left -/

/-- An expression without clauses at its first node keeps the node. -/
theorem fused_iff_of_idle (h : Rule.clauseFusion.Idle e) :
    Fused e e' drawn ↔ ∃ new, FusedAll e.children new drawn ∧ e' = e.withChildren new := by
  by_cases hblock : ∃ decls body, e = .letIn decls body
  · obtain ⟨decls, body, rfl⟩ := hblock
    have hunclaused : decls.filterMap Decl.arity? = [] := by
      rw [← Grammar.filterMap_arity?_outline]
      exact Grammar.admits_unclaused_iff.2 h
    -- without clauses, all declarations have a place
    have hleaders : leaders decls = decls := by
      have happend := leaders_append hunclaused []
      rwa [leaders, List.append_nil] at happend
    -- the right-hand sides come first among the subexpressions, and the body last
    rw [children_letIn]
    constructor
    · intro hfused
      cases hfused with
      | node hnode _ => exact absurd rfl (hnode decls body)
      | @letIn _ _ _ body' drawn drawn' hdecls hbody =>
        rw [hleaders] at hdecls
        obtain ⟨bodies, hbodies, rfl⟩ := (fusedDecls_iff_of_unclaused hunclaused).1 hdecls
        refine ⟨bodies ++ [body'], ?_, (withChildren_letIn hbodies.length_eq _ _).symm⟩
        rw [← add_zero drawn']
        exact hbodies.append (.cons hbody .nil)
    · rintro ⟨new, hnew, rfl⟩
      obtain ⟨bodies, rest, drawn₁, drawn₂, hbodies, hrest, rfl, rfl⟩ := hnew.exists_of_append
      cases hrest with
      | @cons _ body' _ _ drawn₂ _ hbody hnil =>
        cases hnil
        rw [withChildren_letIn hbodies.length_eq, add_zero]
        refine .letIn ?_ hbody
        rw [hleaders]
        exact (fusedDecls_iff_of_unclaused hunclaused).2 ⟨bodies, hbodies, rfl⟩
  · constructor
    · intro hfused
      cases hfused with
      | node _ hnew => exact ⟨_, hnew, rfl⟩
      | letIn _ _ => exact absurd ⟨_, _, rfl⟩ hblock
    · rintro ⟨new, hnew, rfl⟩
      exact .node (fun decls body heq => hblock ⟨decls, body, heq⟩) hnew

/-- An expression without clauses is its own fused form. -/
theorem Fused.of_idle (h : e.Everywhere Rule.clauseFusion.Idle) : Fused e e 0 := by
  induction h with
  | @intro e hidle _ ih =>
    exact (fused_iff_of_idle hidle).2 ⟨e.children, .of_forall ih, (withChildren_children e).symm⟩

/-! ## Functions -/

/-- Variables are their own fused forms. -/
theorem FusedAll.eq_of_vars {names : List String} (h : FusedAll (names.map .var) new drawn) :
    new = names.map .var ∧ drawn = 0 := by
  induction names generalizing new drawn with
  | nil =>
    cases h
    exact ⟨rfl, rfl⟩
  | cons name names ih =>
    cases h with
    | cons hvar hrest =>
      obtain ⟨rfl, rfl⟩ := ih hrest
      obtain ⟨none, hnone, rfl⟩ := (fused_iff_of_idle fun _ _ => rfl).1 hvar
      cases hnone
      exact ⟨rfl, zero_add 0⟩

theorem map_body_armsOf (clauses : List (List Pattern × Expr)) :
    (armsOf clauses).map Arm.body = clauses.map Prod.snd :=
  List.map_map

theorem withBodies_armsOf (clauses : List (List Pattern × Expr)) (bodies : List Expr) :
    Arm.withBodies (armsOf clauses) bodies = armsOf ((clauses.map Prod.fst).zip bodies) := by
  induction clauses generalizing bodies with
  | nil => rfl
  | cons clause clauses ih =>
    cases bodies with
    | nil => rfl
    | cons body bodies => exact congrArg (_ :: ·) (ih bodies)

/-- The function of some clauses keeps its form, with the right-hand sides of the clauses fused. -/
theorem Fused.exists_of_fusedFunction {names : List String} {clauses : List (List Pattern × Expr)}
    (h : Fused (fusedFunction names clauses) e drawn) :
    ∃ bodies, FusedAll (clauses.map Prod.snd) bodies drawn
      ∧ e = fusedFunction names ((clauses.map Prod.fst).zip bodies) := by
  obtain ⟨new, hnew, rfl⟩ := (fused_iff_of_idle fun _ _ => rfl).1 h
  -- the body of the function is a case of a tuple of variables
  cases hnew with
  | cons hcase hnil =>
  cases hnil
  obtain ⟨new, hnew, rfl⟩ := (fused_iff_of_idle fun _ _ => rfl).1 hcase
  cases hnew with
  | @cons _ _ _ bodies _ _ htuple hbodies =>
  obtain ⟨elements, helements, rfl⟩ := (fused_iff_of_idle fun _ _ => rfl).1 htuple
  obtain ⟨rfl, rfl⟩ := FusedAll.eq_of_vars helements
  rw [map_body_armsOf] at hbodies
  rw [add_zero, zero_add]
  refine ⟨bodies, hbodies, ?_⟩
  exact congrArg (fun arms => Expr.lam _ (.caseOf _ arms)) (withBodies_armsOf clauses bodies)

/-! ## Clauses of a block -/

theorem clausesOf_eq_nil {name : String} (h : decls.filterMap Decl.arity? = []) :
    clausesOf name decls = [] := by
  refine List.eq_nil_iff_forall_not_mem.2 fun clause hclause => ?_
  have hnone := List.filterMap_eq_nil_iff.1 h _ (mem_clausesOf.1 hclause)
  contradiction

theorem clausesOf_append (name : String) (decls decls' : List (Decl Expr)) :
    clausesOf name (decls ++ decls') = clausesOf name decls ++ clausesOf name decls' :=
  List.filterMap_append

theorem clausesOf_cons_self (name : String) (params : List Pattern) (body : Expr)
    (decls : List (Decl Expr)) :
    clausesOf name (.clause name params body :: decls)
      = (params, body) :: clausesOf name decls := by
  simp [clausesOf]

theorem clausesOf_cons_of_ne {name other : String} (h : other ≠ name) (params : List Pattern)
    (body : Expr) (decls : List (Decl Expr)) :
    clausesOf other (.clause name params body :: decls) = clausesOf other decls := by
  simp [clausesOf, h.symm]

theorem clausesOf_withoutClausesOf {name other : String} (h : other ≠ name)
    (decls : List (Decl Expr)) :
    clausesOf other (withoutClausesOf name decls) = clausesOf other decls := by
  rw [clausesOf, withoutClausesOf, List.filterMap_filter, clausesOf]
  refine List.filterMap_congr fun decl _ => ?_
  cases decl with
  -- a clause of the other name is not taken out, and any other clause is not asked for
  | clause name' params body =>
    by_cases heq : name' = other
    · simp [heq, h]
    · simp [heq]
  | value _ _ | data _ => simp

theorem ne_of_mem_withoutClausesOf {name other : String} {params : List Pattern} {body : Expr}
    (h : .clause other params body ∈ withoutClausesOf name decls) : other ≠ name :=
  bne_iff_ne.1 (List.mem_filter.1 h).2

/-- The clauses of the other names are those that they were, when those of one name are fused. -/
theorem clausesOf_fused {name other : String} (h : other ≠ name) (before after : List (Decl Expr))
    (params : List Pattern) (body value : Expr) :
    clausesOf other (before ++ .value (.var name) value :: withoutClausesOf name after)
      = clausesOf other (before ++ .clause name params body :: after) := by
  rw [clausesOf_append, clausesOf_append, clausesOf_cons_of_ne h,
    ← clausesOf_withoutClausesOf h after]
  rfl

/-! ## Firings -/

/-- The variables that a supply hands out up to a later one. -/
def FreshSupply.between (start stop : FreshSupply) : Multiset String :=
  (List.Ico start.next stop.next).map FreshSupply.nameOf

namespace FreshSupply

theorem between_self (supply : FreshSupply) : supply.between supply = 0 := by
  rw [between, List.Ico.self_empty]
  rfl

theorem between_drawMany (supply : FreshSupply) (count : Nat) :
    supply.between (supply.drawMany count).2 = (supply.drawMany count).1 := by
  rw [between, drawMany, List.Ico, Nat.add_sub_cancel_left, List.range'_eq_map_range, List.map_map]
  rfl

theorem between_add {start middle stop : FreshSupply} (h : start.next ≤ middle.next)
    (h' : middle.next ≤ stop.next) :
    start.between middle + middle.between stop = start.between stop := by
  rw [between, between, between, Multiset.coe_add, ← List.map_append,
    List.Ico.append_consecutive h h']

theorem nodup_between (start stop : FreshSupply) : (start.between stop).Nodup :=
  Multiset.coe_nodup.2 ((List.Ico.nodup _ _).map fun _ _ => nameOf_inj)

theorem mem_between {start stop : FreshSupply} {name : String} :
    name ∈ start.between stop ↔ DrawnFrom start.next stop.next name := by
  rw [between, Multiset.mem_coe, List.mem_map]
  constructor
  · rintro ⟨number, hnumber, rfl⟩
    obtain ⟨hle, hlt⟩ := List.Ico.mem.1 hnumber
    exact ⟨number, hle, hlt, rfl⟩
  · rintro ⟨number, hle, hlt, rfl⟩
    exact ⟨number, List.Ico.mem.2 ⟨hle, hlt⟩, rfl⟩

end FreshSupply

/-- The value of the clauses of a name is fused to what the first of them is. -/
theorem Fused.of_fusedValue {name : String} {params : List Pattern} {first value : Expr}
    {later : List (List Pattern × Expr)} {drawn' : Multiset String}
    (hclauses : clausesOf name block = (params, first) :: later)
    (hcheck : clauseError? name params later = none)
    (h : Fused (fusedValue params first later supply).1 value drawn)
    (hdecls : FusedDecls block decls decls' drawn') :
    FusedDecls block (.clause name params first :: decls) (.value (.var name) value :: decls')
      (supply.between (fusedValue params first later supply).2 + drawn + drawn') := by
  rw [clauseError?_eq_none_iff] at hcheck
  by_cases hparams : params = []
  -- without patterns there is one clause
  · subst hparams
    have hlater : later = [] :=
      List.eq_nil_iff_forall_not_mem.2 fun clause hclause => (hcheck clause hclause).2 rfl
    rw [hlater] at hclauses
    have hvalue : fusedValue [] first later supply = (first, supply) := rfl
    rw [hvalue] at h ⊢
    rw [FreshSupply.between_self, zero_add]
    exact .constant hclauses h hdecls
  · rw [fusedValue_eq hparams] at h ⊢
    obtain ⟨bodies, hbodies, rfl⟩ := h.exists_of_fusedFunction
    rw [← hclauses] at hbodies ⊢
    rw [FreshSupply.between_drawMany]
    refine .function hparams ?_ hbodies hdecls
    rw [hclauses, FreshSupply.length_drawMany, List.forall_mem_cons]
    exact ⟨rfl, fun clause hclause => (hcheck clause hclause).1⟩

/-- The fused form of a block with the clauses of one name fused is that of the block. -/
theorem Fused.of_fuseClauses {body : Expr} (hagree : Decl.ClausesAgree decls)
    (hfuse : fuseClauses options supply decls = .ok (some (decls', supply')))
    (h : Fused (.letIn decls' body) e drawn) :
    Fused (.letIn decls body) e (supply.between supply' + drawn) := by
  obtain ⟨before, name, params, first, after, hbefore, rfl, rfl, rfl, -⟩ :=
    fuseClauses_eq_some hfuse
  have hclauses : clausesOf name (before ++ .clause name params first :: after)
      = (params, first) :: clausesOf name after := by
    rw [clausesOf_append, clausesOf_eq_nil hbefore, List.nil_append, clausesOf_cons_self]
  have hcheck := hagree.clauseError?_eq_none
  cases h with
  | node hnode _ => exact absurd rfl (hnode _ _)
  | @letIn _ _ _ body' _ drawn' hdecls hbody =>
    rw [leaders_append hbefore, leaders] at hdecls
    obtain ⟨before', _, drawn₁, _, h₁, h₂, rfl, rfl⟩ := hdecls.exists_of_append
    cases h₂ with
    | @value _ _ rest' _ value' drawn₂ drawn₃ _ hvalue hrest =>
      -- the other declarations do not depend on what has become of the name
      have hbefore' : FusedDecls (before ++ .clause name params first :: after)
          before before' drawn₁ :=
        h₁.congr fun _ _ _ hmem => absurd (List.filterMap_eq_nil_iff.1 hbefore _ hmem) nofun
      have hrest' : FusedDecls (before ++ .clause name params first :: after)
          (leaders (withoutClausesOf name after)) rest' drawn₃ := by
        refine hrest.congr fun other _ _ hmem => clausesOf_fused ?_ before after params first _
        exact ne_of_mem_withoutClausesOf ((leaders_sublist _).subset hmem)
      have hplace := hbefore'.append (hvalue.of_fusedValue hclauses hcheck hrest')
      have htotal : supply.between (fusedValue params first (clausesOf name after) supply).2
            + (drawn₁ + (drawn₂ + drawn₃) + drawn')
          = drawn₁ + (supply.between (fusedValue params first (clausesOf name after) supply).2
            + drawn₂ + drawn₃) + drawn' := by
        abel
      rw [htotal]
      refine .letIn ?_ hbody
      rwa [leaders_append hbefore, leaders]

/-- A firing leaves what is still to be fused: the variables that it drew are those of the functions
that it made. -/
theorem Fused.of_fireFirst {e₁ : Expr} (hagree : Grammar.agreeing.Generates e)
    (hfire : fireFirst (Rule.clauseFusion.fire options supply) e = .ok (some (e₁, supply')))
    (h : Fused e₁ e' drawn) : Fused e e' (supply.between supply' + drawn) := by
  induction e using Expr.induction_children generalizing e₁ e' drawn with
  | step e ih =>
    obtain ⟨hnode, hparts⟩ := Grammar.generates_iff.1 hagree
    rw [fireFirst_eq, Attempt.orElse_eq_some, Attempt.map_eq_some] at hfire
    rcases hfire with hroot | ⟨hnone, new, hnew, rfl⟩
    · -- a block has the clauses of one name fused
      cases e with
      | letIn decls body =>
        rw [Rule.fire] at hroot
        obtain ⟨decls', hfuse, rfl⟩ := Attempt.map_eq_some.1 hroot
        exact h.of_fuseClauses (Decl.clausesAgree_outline.1 hnode) hfuse
      | _ => cases hroot
    · -- a node without clauses keeps them out, so both sides are fused part by part
      have hidle : Rule.clauseFusion.Idle e := Rule.idle_of_fire_eq_none hnone
      obtain ⟨before, c, c', after, hchildren, rfl, hc⟩ := exists_of_fireFirstOf_eq_some hnew
      have hlength := Expr.length_of_children_eq hchildren c'
      have hidle' : Rule.clauseFusion.Idle (e.withChildren (before ++ c' :: after)) := by
        rwa [← Grammar.admits_unclaused_iff, Grammar.admits_withChildren hlength,
          Grammar.admits_unclaused_iff]
      obtain ⟨fused, hfused, rfl⟩ := (fused_iff_of_idle hidle').1 h
      rw [children_withChildren hlength] at hfused
      rw [withChildren_withChildren hlength (hfused.length_eq.trans hlength)]
      obtain ⟨before', _, drawn₁, _, hbefore, hrest, rfl, rfl⟩ := hfused.exists_of_append
      cases hrest with
      | @cons _ c'' _ after' drawn₂ drawn₃ hfirst hafter =>
        refine (fused_iff_of_idle hidle).2 ⟨before' ++ c'' :: after', ?_, rfl⟩
        have hmem : c ∈ e.children := hchildren ▸ List.mem_append_right before List.mem_cons_self
        have hplace := hbefore.append (.cons (ih c hmem (hparts c hmem) hc hfirst) hafter)
        rw [hchildren, add_left_comm]
        rwa [add_assoc] at hplace

/-! ## Runs -/

/-- A firing never gives back what has been drawn. -/
theorem next_le_of_fireFirst {rule : Rule} {e₁ : Expr}
    (hfire : fireFirst (rule.fire options supply) e = .ok (some (e₁, supply'))) :
    supply.next ≤ supply'.next := by
  have hrewrites := fireFirst_rewrites hfire
  clear hfire
  induction hrewrites with
  | root hroot => exact (Rule.namesGrow_fire hroot).next_le
  | child _ _ ih => exact ih

/-- What a run of clause fusion ends with is the fused form of what it starts from. -/
theorem Fused.of_fires {before after : Expr × FreshSupply}
    (hsteps : Relation.ReflTransGen (Fires options [.clauseFusion]) before after)
    (hagree : Grammar.agreeing.Generates before.1)
    (hidle : after.1.Everywhere Rule.clauseFusion.Idle) :
    before.2.next ≤ after.2.next ∧ Fused before.1 after.1 (before.2.between after.2) := by
  induction hsteps using Relation.ReflTransGen.head_induction_on with
  | refl =>
    rw [FreshSupply.between_self]
    exact ⟨Nat.le_refl _, .of_idle hidle⟩
  -- what the rest of the run draws comes after what the firing drew
  | @head before middle hfire _ ih =>
    obtain ⟨rule, hrule, hfire⟩ := hfire
    obtain rfl := List.mem_singleton.1 hrule
    have hkept : Grammar.agreeing.Generates middle.1 :=
      hagree.of_rewrites (fun _ _ hc hroot => Grammar.closed_agreeing hc hroot)
        (fireFirst_rewrites hfire)
    obtain ⟨hlast, hfused⟩ := ih hkept
    have hfirst := next_le_of_fireFirst hfire
    rw [← FreshSupply.between_add hfirst hlast]
    exact ⟨hfirst.trans hlast, hfused.of_fireFirst hagree hfire⟩

/-- The fixpoint of clause fusion from a block, in which and below which all clauses agree, is the
block in which each name has one value, where its first clause stood, and the other declarations are
as they were: the single clause of a name without patterns, and else a function of as many variables
as the clauses have patterns, with an arm for each clause, in order. All right-hand sides are fused
likewise. The variables of all functions together are different ones, drawn from the supply, so none
of them is in the block if the supply avoids its names. -/
theorem toFixpoint_fused (options : SimplifyOptions) (supply : FreshSupply)
    (decls : List (Decl Expr)) (body : Expr)
    (hagree : ∀ block, (letIn decls body).HasBlock block → Decl.ClausesAgree block) :
    ∃ decls' body' supply' drawn drawn',
      (toFixpoint options Pass.clauseFusion.rules supply (.letIn decls body)).result
          = .ok (.letIn decls' body', supply')
        ∧ FusedDecls decls (leaders decls) decls' drawn ∧ Fused body body' drawn'
        ∧ (drawn + drawn').Nodup
        ∧ (∀ name ∈ drawn + drawn', DrawnFrom supply.next supply'.next name)
        ∧ (supply.Avoids (supply'.next - supply.next) (letIn decls body).names →
          ∀ name ∈ drawn + drawn', name ∉ (letIn decls body).names) := by
  have hblocks := Grammar.generates_agreeing_iff.2 hagree
  obtain ⟨⟨e', supply'⟩, hresult⟩ := exists_toFixpoint_eq_ok_of_agreeing options supply hblocks
  obtain ⟨hsteps, hidle⟩ := toFixpoint_eq_ok hresult
  obtain ⟨hnext, hfused⟩ := Fused.of_fires hsteps hblocks (hidle _ List.mem_cons_self)
  generalize hdrawn : supply.between supply' = drawn at hfused
  cases hfused with
  | node hnode _ => exact absurd rfl (hnode decls body)
  | @letIn _ decls' _ body' drawn drawn' hdecls hbody =>
    have hnodup : (drawn + drawn').Nodup := hdrawn ▸ supply.nodup_between supply'
    have hfrom : ∀ name ∈ drawn + drawn', DrawnFrom supply.next supply'.next name :=
      fun name hname => FreshSupply.mem_between.1 (hdrawn ▸ hname)
    refine ⟨decls', body', supply', drawn, drawn', hresult, hdecls, hbody, hnodup, hfrom, ?_⟩
    intro havoids name hname
    obtain ⟨number, hle, hlt, rfl⟩ := hfrom name hname
    exact havoids number hle (by omega)

/-- A function of two clauses with a data type, a value and a constant in between. The value and
the second clause have blocks with clauses of their own. -/
def interleaved : List (Decl Expr) :=
  [.clause "f" [.lit (.int 0), .wildcard] (.var "k"),
    .data ⟨"Box", [], [⟨"Box", [.con "Bool" []]⟩]⟩,
    .value (.var "v") (.letIn [.clause "g" [.var "a"] (.var "a")] (.app (.var "g") [.var "k"])),
    .clause "k" [] (.lit (.int 2)),
    .clause "f" [.var "n", .var "m"] (.letIn [.clause "c" [] (.var "n")] (.var "c"))]

theorem toFixpoint_fused_interleaved :
    ∃ decls' body' supply' drawn drawn',
      (toFixpoint {} Pass.clauseFusion.rules .initial (.letIn interleaved (.var "v"))).result
          = .ok (.letIn decls' body', supply')
        ∧ FusedDecls interleaved (leaders interleaved) decls' drawn ∧ Fused (.var "v") body' drawn'
        ∧ (drawn + drawn').Nodup
        ∧ ∀ name ∈ drawn + drawn', name ∉ (letIn interleaved (.var "v")).names := by
  have hagree : ∀ block, (letIn interleaved (.var "v")).HasBlock block →
      Decl.ClausesAgree block := by
    refine Grammar.generates_agreeing_iff.1 (Grammar.generates_letIn.2 ⟨?_, ?_, by simp⟩)
    · exact Decl.clausesAgree_outline.2 (by decide)
    · simp [interleaved, Grammar.generates_letIn, Grammar.generates_app, Grammar.agreeing,
        Decl.outline, Decl.ClausesAgree, Decl.arity?]
  obtain ⟨decls', body', supply', drawn, drawn', hresult, hdecls, hbody, hnodup, -, hfresh⟩ :=
    toFixpoint_fused {} .initial interleaved (.var "v") hagree
  refine ⟨decls', body', supply', drawn, drawn', hresult, hdecls, hbody, hnodup, hfresh ?_⟩
  intro number _ _ hmem
  -- no name of the block begins like a fresh variable
  have hnames : ∀ name ∈ (letIn interleaved (.var "v")).names, name.toList.head? ≠ some 'x' := by
    decide
  refine hnames _ hmem ?_
  rw [FreshSupply.toList_nameOf]
  rfl

end Clausal
