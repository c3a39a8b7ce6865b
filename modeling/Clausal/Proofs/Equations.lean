import Clausal.Proofs.Letrec
import Clausal.Proofs.Matching.Filling
import Clausal.Proofs.Simplification.Functions

/-!
# Clauses are equations

A program of function clauses means what its clauses say as equations, the first one that matches
before the others: the lambda term of a function applied to values is convertible to that of the
right-hand side of the first clause whose patterns match the values, with the parts of the values
for the variables of the patterns, and to `bot` if no clause matches.

Clause fusion and elaboration make a function of each name that takes its arguments in turn and
matches them. The last two passes and the substitution of fixpoints make an environment in which the
name stands for this function. Both are the same for every expression that the program encloses, so
two expressions whose variables are those of the program can be compared in one environment.

## Main results

* `MatchFunction.conv_applyAll`: a function that matches its arguments, applied to values;
* `FunctionClauses.exists_compiled`: the environment of a block of functions;
* `Program.clauses_are_equations`: the equations of a program.
-/

namespace Clausal

open Clausal.Expr

variable {options : SimplifyOptions} {decls : List (Decl Expr)} {supply : FreshSupply}
  {size : String → Nat}

/-! ## Functions that match their arguments -/

/-- A function of some variables in turn, applied to as many arguments: its body where the variables
stand for the arguments. -/
theorem conv_curried {names : List String} (hnames : names.Nodup) {args : List Nameless}
    (hlength : names.length = args.length) (body : Expr) (env : Environment) :
    ∃ env' : Environment, Nameless.Conv (((curried names body).read env).applyAll args)
        (body.read env')
      ∧ List.Forall₂ (fun name arg => env' name = arg) names args
      ∧ ∀ name ∉ names, env' name = env name := by
  induction names generalizing args env with
  | nil =>
    obtain rfl := List.length_eq_zero_iff.1 hlength.symm
    exact ⟨env, .refl _, .nil, fun _ _ => rfl⟩
  | cons name names ih =>
    cases args with
    | nil => contradiction
    | cons arg args =>
      obtain ⟨hname, hnames⟩ := List.nodup_cons.1 hnames
      obtain ⟨env', hconv, hargs, hothers⟩ :=
        ih hnames (Nat.succ.inj hlength) (Function.update env name arg)
      refine ⟨env', ?_, .cons ?_ hargs, fun other hother => ?_⟩
      · have hbeta := conv_lam1 name (curried names body) env arg
        exact (hbeta.applyAll (List.forall₂_same.2 fun arg _ => .refl arg)).trans hconv
      · rw [hothers name hname, Function.update_self]
      · rw [List.mem_cons, not_or] at hother
        obtain ⟨hne, hother⟩ := hother
        rw [hothers other hother, Function.update_of_ne hne]

/-- A function of variables in turn that matches them with the patterns of some clauses. Both the
variables and those of the matches have numbers between two given ones. -/
structure MatchFunction (share : Bool) (clauses : List (List Pattern × Expr)) (low high : Nat) where
  /-- The variables of the function. -/
  names : List String
  /-- The supply of the variables of the matches. -/
  supply : FreshSupply
  arity : ∀ clause ∈ clauses, clause.1.length = names.length
  nodup : names.Nodup
  drawn : ∀ name ∈ names, DrawnFrom low supply.next name
  low_le : low ≤ supply.next
  next_le : (matchChain share (.tuple (names.map .var)) supply (armsOf clauses)).2.next ≤ high

namespace MatchFunction

variable {share : Bool} {clauses : List (List Pattern × Expr)} {low high : Nat}

/-- The expression of the function. -/
def value (function : MatchFunction share clauses low high) : Expr :=
  curried function.names
    (matchChain share (.tuple (function.names.map .var)) function.supply (armsOf clauses)).1

/-- The function applied to values comes to the right-hand side of the first clause that matches,
with the names of its patterns for the parts of the values, and to `bot` if none does. -/
theorem conv_applyAll (function : MatchFunction share clauses low high)
    (hfresh : ∀ number, low ≤ number → number < high → ∀ clause ∈ clauses,
      FreshSupply.nameOf number ∉ Pattern.boundNamesList clause.1
        ∧ FreshSupply.nameOf number ∉ clause.2.free)
    {values : List Value} (hvalues : ∀ value ∈ values, value.Fits size)
    (hlength : function.names.length = values.length)
    (hpatterns : ∀ clause ∈ clauses, ∀ pattern ∈ clause.1, pattern.Fits size) (env : Environment) :
    Nameless.Conv ((function.value.read env).applyAll (values.map Value.nameless))
      ((firstMatch? values clauses).elim (.const (.primitive .bot))
        fun found => found.1.read (env.assign found.2)) := by
  obtain ⟨env', hconv, hargs, hothers⟩ := conv_curried function.nodup
    (hlength.trans (List.length_map Value.nameless).symm)
    (matchChain share (.tuple (function.names.map .var)) function.supply (armsOf clauses)).1 env
  rw [List.forall₂_map_right_iff] at hargs
  -- the variables of the function are in no clause
  have hnames : ∀ name ∈ function.names, ∀ clause ∈ clauses,
      name ∉ Pattern.boundNamesList clause.1 ∧ name ∉ clause.2.free := by
    intro name hname clause hclause
    obtain ⟨number, hle, hlt, rfl⟩ := function.drawn name hname
    have hnext := (next_le_matchChain ..).trans function.next_le
    exact hfresh number hle (hlt.trans_le hnext) clause hclause
  have hchain := conv_matchChain_armsOf share hvalues (hargs.imp fun _ _ h => .of_eq h)
    (fun clause hclause =>
      ⟨(function.arity clause hclause).trans hlength, hpatterns clause hclause⟩)
    (fun name hname clause hclause => (hnames name hname clause hclause).1) function.supply
    fun number hle hlt => ⟨fun hmem => ?_, fun clause hclause => ?_⟩
  · refine hconv.trans (hchain.trans (.of_eq ?_))
    cases hfirst : firstMatch? values clauses with
    | none => rfl
    | some found =>
      obtain ⟨clause, hclause, hmatch⟩ := List.exists_of_findSome?_eq_some hfirst
      obtain ⟨bindings, -, rfl⟩ := Option.map_eq_some_iff.1 hmatch
      refine read_congr fun name hname => ?_
      have hmem : name ∉ function.names := fun hmem => (hnames name hmem clause hclause).2 hname
      rw [Environment.assign, Environment.assign, hothers name hmem]
  · obtain ⟨other, -, hother, heq⟩ := function.drawn _ hmem
    have := FreshSupply.nameOf_inj heq
    omega
  · exact hfresh number (function.low_le.trans hle) (hlt.trans_le function.next_le) clause hclause

end MatchFunction

/-! ## Blocks of functions -/

theorem mem_namesDecls_of_mem_clausesOf {function : String} {clause : List Pattern × Expr}
    (hclause : clause ∈ clausesOf function decls) {name : String}
    (h : name ∈ Pattern.boundNamesList clause.1 ∨ name ∈ clause.2.names) :
    name ∈ namesDecls decls := by
  have hdecl : .clause function clause.1 clause.2 ∈ decls := mem_clausesOf.1 hclause
  clear hclause
  induction decls with
  | nil => contradiction
  | cons decl decls ih =>
    rcases List.mem_cons.1 hdecl with rfl | hrest
    · rcases h with h | h <;> simp [namesDecls, h]
    · cases decl <;> simp [namesDecls, ih hrest]

namespace Fusing

variable {start : FreshSupply} {functions : List (String × List String)}

/-- The variables of the functions are not those of the patterns. -/
theorem not_mem_boundNamesList (h : Fusing decls start functions supply) {high : Nat}
    (hhigh : supply.next ≤ high) (havoids : start.Avoids (high - start.next) (namesDecls decls)) :
    ∀ function ∈ functions, ∀ name ∈ function.2, ∀ clause ∈ clausesOf function.1 decls,
      name ∉ Pattern.boundNamesList clause.1 := by
  intro function hfunction name hname clause hclause hmem
  obtain ⟨number, hle, hlt, rfl⟩ := h.drawn function hfunction name hname
  exact havoids number hle (by omega) (mem_namesDecls_of_mem_clausesOf hclause (.inl hmem))

variable {low : Nat} {states : List Elaborating} {supply' : FreshSupply}

/-- The functions that elaboration is done with can be defined by recursion. -/
theorem letrec (h : Fusing decls start functions supply) (hdecls : FunctionClauses decls)
    (hne : functions ≠ []) (hstates : ElaboratingAll options decls functions low states supply')
    (hended : ∀ state ∈ states, state.Ended options decls) :
    Letrec (states.map (Elaborating.binding options decls)) where
  nonempty := by
    intro hnil
    refine hne ?_
    rw [← hstates.map_function, List.map_eq_nil_iff.1 hnil, List.map_nil]
  isIrrefutable := List.forall_mem_map.2 fun _ _ => rfl
  nodup := by
    have hdefined : definedNames (states.map (Elaborating.binding options decls))
        = functions.map Prod.fst := by
      rw [← hstates.map_function, definedNames, List.flatMap_map, List.map_map,
        List.map_eq_flatMap]
      rfl
    rw [hdefined]
    exact h.nodup
  exists_core := by
    refine List.forall_mem_map.2 fun state hstate => Core.exists_ofExpr_eq_ok_iff.2 ?_
    obtain ⟨supply', -, hvalue⟩ := hended state hstate
    have hvar (name : String) : Grammar.core.lambda [.var name] := ⟨name, rfl⟩
    rw [Elaborating.binding, hvalue]
    refine (generates_curried hvar).2
      (Grammar.generates_matchChain hvar _ (generates_tuple_var _) _ ?_)
    exact List.forall_mem_map.2 fun clause hclause => hdecls.generates hclause

/-- A function that elaboration is done with matches its arguments. -/
theorem exists_matchFunction (h : Fusing decls start functions supply)
    (hstates : ElaboratingAll options decls functions supply.next states supply') {high : Nat}
    (hhigh : supply'.next ≤ high) (hended : ∀ state ∈ states, state.Ended options decls)
    {state : Elaborating} (hstate : state ∈ states) :
    ∃ function : MatchFunction options.shareFallthrough (clausesOf state.function.1 decls)
        start.next high,
      state.value options decls = function.value := by
  have hfunction : state.function ∈ functions :=
    hstates.map_function ▸ List.mem_map_of_mem hstate
  obtain ⟨chain, hchain, hvalue⟩ := hended state hstate
  obtain ⟨hlow, hnext⟩ := hstates.within state hstate chain hchain
  refine ⟨⟨state.function.2, chain, h.arity _ hfunction, h.nodup_names _ hfunction,
    fun name hname => ?_, h.start_le.trans hlow, hnext.trans hhigh⟩, hvalue⟩
  exact (h.drawn _ hfunction name hname).mono (Nat.le_refl _) hlow

end Fusing

/-- Clause fusion and elaboration make a function of each name that has clauses, and nothing else,
whatever the expression that the block encloses. It is enough that one of the runs stays where the
variables are fresh. -/
theorem FunctionClauses.exists_functions (h : FunctionClauses decls) (hne : decls ≠ [])
    (options : SimplifyOptions) {high : Nat}
    (havoids : supply.Avoids (high - supply.next) (namesDecls decls)) {start : Expr}
    (hstart : Grammar.core.Generates start)
    (hhigh : (lastState options Pass.all supply (letIn decls start)).2.next ≤ high) :
    ∃ bindings supply', Letrec bindings
      ∧ supply.next ≤ supply'.next
      ∧ (∀ binding ∈ bindings, ∃ name, binding.1 = .var name ∧ clausesOf name decls ≠ [])
      ∧ (∀ name, clausesOf name decls ≠ [] →
        ∃ function : MatchFunction options.shareFallthrough (clausesOf name decls) supply.next high,
          (.var name, function.value) ∈ bindings)
      ∧ ∀ body, Grammar.core.Generates body →
        (runPasses options Pass.all supply (letIn decls body)).result
            = (runPasses options blockPasses supply' (letIn (valueDecls bindings) body)).result
          ∧ lastState options Pass.all supply (letIn decls body)
            = lastState options blockPasses supply' (letIn (valueDecls bindings) body)
          ∧ (letIn (valueDecls bindings) body).free ⊆ (letIn decls body).free := by
  have hbot : Grammar.core.Generates bot := Grammar.generates_prim _
  -- the first pass puts one function in the place of the clauses of each name
  obtain ⟨functions, supply₁, hfusing, hcovered, hfusion⟩ := exists_fused h options supply
  have hgenerates : Grammar.fused.Generates (letIn (fused decls functions) bot) := by
    obtain ⟨_, _, hresult, hfused⟩ :=
      Pass.clauseFusion.toFixpoint_generates supply (h.generates_letIn options hbot)
    cases (hfusion bot hbot).symm.trans hresult
    exact hfused
  rw [Pass.all, lastState_cons_of_ok _ (hfusion start hstart)] at hhigh
  have hnext₁ : supply₁.next ≤ high := (next_le_lastState ..).trans hhigh
  -- the second one takes the variables in turn and makes chains of matches
  obtain ⟨states, supply₂, hstates, hended, helaboration⟩ :=
    exists_elaborated h options (hfusing.not_mem_boundNamesList hnext₁ havoids) hgenerates
  rw [lastState_cons_of_ok _ (helaboration start hstart)] at hhigh
  have hnext₂ : supply₂.next ≤ high := (next_le_lastState ..).trans hhigh
  -- there is a clause, and its name has a function
  have hfunctions : functions ≠ [] := by
    rintro rfl
    obtain ⟨decl, hdecl⟩ := List.exists_mem_of_ne_nil decls hne
    obtain ⟨name, params, body, rfl⟩ := h.isClause decl hdecl
    exact List.not_mem_nil (hcovered name (List.ne_nil_of_mem (mem_clausesOf.2 hdecl)))
  refine ⟨states.map (Elaborating.binding options decls), supply₂,
    hfusing.letrec h hfunctions hstates hended, hfusing.start_le.trans hstates.low_le, ?_,
    fun name hname => ?_, fun body hbody => ⟨?_, ?_, ?_⟩⟩
  · refine List.forall_mem_map.2 fun state hstate => ⟨state.function.1, rfl, ?_⟩
    exact hfusing.ne_nil _ (hstates.map_function ▸ List.mem_map_of_mem hstate)
  · obtain ⟨function, hmem, rfl⟩ := List.mem_map.1 (hcovered name hname)
    rw [← hstates.map_function] at hmem
    obtain ⟨state, hstate, rfl⟩ := List.mem_map.1 hmem
    obtain ⟨function, hvalue⟩ := hfusing.exists_matchFunction hstates hnext₂ hended hstate
    exact ⟨function, List.mem_map.2 ⟨state, hstate, congrArg _ hvalue⟩⟩
  · rw [Pass.all, (runPasses_cons_of_ok (hfusion body hbody)).2,
      (runPasses_cons_of_ok (helaboration body hbody)).2]
    rfl
  · rw [Pass.all, lastState_cons_of_ok _ (hfusion body hbody),
      lastState_cons_of_ok _ (helaboration body hbody)]
    rfl
  · exact List.Subset.trans (toFixpoint_free_subset (helaboration body hbody))
      (toFixpoint_free_subset (hfusion body hbody))

/-- A name that a block of functions does not use is not used by the block that is made of it. -/
theorem not_mem_of_free_subset {bindings : List (Pattern × Expr)} {body : Expr} {fresh : String}
    (hbound : ∀ binding ∈ bindings, ∃ name, binding.1 = .var name ∧ clausesOf name decls ≠ [])
    (hfree : (letIn (valueDecls bindings) body).free ⊆ (letIn decls body).free)
    (hnames : body.names ⊆ namesDecls decls) (hfresh : fresh ∉ namesDecls decls) :
    fresh ∉ body.free ∧ ∀ binding ∈ bindings,
      fresh ∉ binding.1.boundNames ∧ fresh ∉ binding.2.free := by
  have hdefined : ∀ binding ∈ bindings, fresh ∉ binding.1.boundNames := by
    intro binding hbinding hmem
    obtain ⟨name, hname, hclauses⟩ := hbound binding hbinding
    obtain ⟨clause, hclause⟩ := List.exists_mem_of_ne_nil _ hclauses
    rw [hname] at hmem
    refine hfresh (mem_namesDecls_of_mem_boundNames (List.mem_flatMap.2 ⟨_,
      mem_clausesOf.1 hclause, hmem⟩))
  refine ⟨fun hmem => hfresh (hnames (free_subset_names _ hmem)), fun binding hbinding =>
    ⟨hdefined binding hbinding, fun hmem => hfresh ?_⟩⟩
  -- a variable of a function is one of the block
  have hblock : fresh ∈ (letIn decls body).names :=
    free_subset_names _ (hfree (mem_free_letIn_valueDecls.2 ⟨.inr ⟨binding, hbinding, hmem⟩,
      hdefined⟩))
  rw [Expr.names, List.mem_append] at hblock
  exact hblock.elim id fun hmem => hnames hmem

/-- A block of functions makes an environment, in which each name stands for a function that matches
its arguments with the patterns of the clauses of the name. The lambda term of the block around an
expression whose variables are those of the block is the expression, read in this environment. The
variables that are drawn do not depend on the expression. -/
theorem FunctionClauses.exists_compiled (h : FunctionClauses decls) (hne : decls ≠ [])
    (options : SimplifyOptions) {high : Nat}
    (havoids : supply.Avoids (high - supply.next) (namesDecls decls)) {start : Expr}
    (hstart : Grammar.core.Generates start)
    (hhigh : (lastState options Pass.all supply (letIn decls start)).2.next ≤ high) :
    ∃ env : Environment,
      (∀ name, clausesOf name decls ≠ [] →
        ∃ function : MatchFunction options.shareFallthrough (clausesOf name decls) supply.next high,
          Nameless.Conv (env name) (function.value.read env))
        ∧ ∀ body, Grammar.core.Generates body →
          (lastState options Pass.all supply (letIn decls body)).2
              = (lastState options Pass.all supply (letIn decls start)).2
            ∧ (body.names ⊆ namesDecls decls →
              (∀ name ∈ (letIn decls body).free, (Primitive.ofName? name).isSome = true) →
              ∃ e' compiled, (runPasses options Pass.all supply (letIn decls body)).result = .ok e'
                ∧ e'.compiled = .ok compiled
                ∧ Nameless.Conv compiled.term.nameless (body.read env)) := by
  obtain ⟨bindings, supply', hletrec, hlow, hbound, hfunctions, hruns⟩ :=
    h.exists_functions hne options havoids hstart hhigh
  obtain ⟨groups, hgroups, hcompiles⟩ := hletrec.exists_compiled_of_fresh options supply'
  have hlast (body : Expr) (hbody : Grammar.core.Generates body) :
      (lastState options Pass.all supply (letIn decls body)).2
        = ⟨supply'.next + freshCount (groups.map groupBinding)⟩ := by
    rw [(hruns body hbody).2.1, (hcompiles body hbody).1]
  rw [hlast start hstart] at hhigh
  refine ⟨Environment.primitives.defineAll (groups.map groupBinding), fun name hname => ?_,
    fun body hbody =>
      ⟨(hlast body hbody).trans (hlast start hstart).symm, fun hnames hclosed => ?_⟩⟩
  · obtain ⟨function, hmem⟩ := hfunctions name hname
    have hiff (binding : Pattern × Expr) : binding ∈ groups.flatten ↔ binding ∈ bindings :=
      hgroups.perm.mem_iff
    refine ⟨function, Environment.conv_defineAll Environment.closed_primitives ?_ ?_ hgroups.ordered
      ((hiff _).2 hmem) (.var name)⟩
    · exact fun binding hbinding => hletrec.isIrrefutable binding ((hiff binding).1 hbinding)
    · exact (hgroups.perm.flatMap_right _).nodup_iff.2 hletrec.nodup
  · obtain ⟨hrun, -, hfree⟩ := hruns body hbody
    have hfresh (number : Nat) (hle : supply'.next ≤ number)
        (hlt : number < supply'.next + freshCount (groups.map groupBinding)) :=
      not_mem_of_free_subset hbound hfree hnames
        (havoids number (hlow.trans hle) (by dsimp only at hhigh; omega))
    obtain ⟨e', compiled, hresult, hcompiled, -, hconv⟩ :=
      (hcompiles body hbody).2 (fun name hname => hclosed name (hfree hname)) hfresh
    exact ⟨e', compiled, hrun.trans hresult, hcompiled, hconv⟩

/-! ## Programs -/

namespace Program

variable {p : Program}

theorem mem_namesDecls_of_mem_clause {function : String} {clause : List Pattern × Expr}
    (hclause : clause ∈ clausesOf function p.valueDecls) {name : String}
    (h : name ∈ Pattern.boundNamesList clause.1 ∨ name ∈ clause.2.names) :
    name ∈ namesDecls p.decls :=
  namesDecls_valueDecls p ▸ mem_namesDecls_of_mem_clausesOf hclause h

/-- The supply that the passes start with for a program, whatever variables of its own the
expression beside it uses. -/
def firstSupply (p : Program) : FreshSupply := .past (namesDecls p.decls)

theorem forProgram_eq (p : Program) {e : Expr} (h : e.names ⊆ namesDecls p.decls) :
    FreshSupply.forProgram p e = p.firstSupply :=
  FreshSupply.past_append_of_subset h

/-- What is known of an environment in which a program is read: a name that has clauses stands for a
function that matches its arguments, and an expression whose variables are those of the program
compiles to a lambda term that is the expression, read in the environment. -/
structure ReadIn (p : Program) (options : SimplifyOptions) (env : Environment) : Prop where
  exists_function : ∀ name, clausesOf name p.valueDecls ≠ [] →
    ∃ function : MatchFunction options.shareFallthrough (clausesOf name p.valueDecls)
        p.firstSupply.next Digits.indexBound,
      Nameless.Conv (env name) (function.value.read env)
  exists_compiled : ∀ e, Grammar.core.Generates e → e.names ⊆ namesDecls p.decls →
    (∀ name ∈ e.free, name ∈ freeDecls p.valueDecls
      ∨ name ∈ p.valueDecls.flatMap Decl.boundNames) →
    ∃ compiled, p.run? options e = some (.ok compiled)
      ∧ Nameless.Conv compiled.term.nameless (e.read env)

/-- In the range of the machine the supply of a program avoids its names. -/
theorem avoids_firstSupply (h : p.firstSupply.next ≤ Digits.indexBound) :
    p.firstSupply.Avoids (Digits.indexBound - p.firstSupply.next) (namesDecls p.decls) :=
  FreshSupply.avoids_of_past (Nat.le_refl _) (by omega)

/-- A program of functions that uses nothing but primitives is read in an environment, if a run with
one of the expressions that have no variables of their own stays in the range of the machine. -/
theorem exists_readIn (hp : FunctionClauses p.valueDecls) (hne : p.valueDecls ≠ [])
    (hclosed : ∀ name ∈ (p.enclose bot).free, (Primitive.ofName? name).isSome = true)
    (options : SimplifyOptions) {start : Expr} (hstart : Grammar.core.Generates start)
    (hnames : start.names ⊆ namesDecls p.decls)
    (hrange : (p.lastSupply options start).inRange = true) :
    ∃ env : Environment, p.ReadIn options env := by
  have henclose (e : Expr) : p.enclose e = letIn p.valueDecls e :=
    if_neg (by simpa using hne)
  have hlast (e : Expr) (hnames : e.names ⊆ namesDecls p.decls) : p.lastSupply options e
      = (lastState options Pass.all p.firstSupply (letIn p.valueDecls e)).2 := by
    rw [lastSupply, henclose, forProgram_eq p hnames]
  rw [FreshSupply.inRange_iff, hlast start hnames] at hrange
  have havoids := avoids_firstSupply ((next_le_lastState ..).trans hrange.le)
  rw [← namesDecls_valueDecls] at havoids
  obtain ⟨env, hfunctions, hcompiles⟩ :=
    hp.exists_compiled hne options havoids hstart hrange.le
  refine ⟨env, hfunctions, fun e he hnames hfree => ?_⟩
  have hprimitive : ∀ name ∈ (letIn p.valueDecls e).free,
      (Primitive.ofName? name).isSome = true := by
    intro name hname
    obtain ⟨hmem, hunbound⟩ := mem_free_letIn.1 hname
    have hdecls : name ∈ freeDecls p.valueDecls :=
      hmem.elim id fun hmem => (hfree name hmem).resolve_right hunbound
    exact hclosed name (henclose bot ▸ mem_free_letIn.2 ⟨.inl hdecls, hunbound⟩)
  obtain ⟨hsame, hcompiles⟩ := hcompiles e he
  obtain ⟨e', compiled, hresult, hcompiled, hconv⟩ :=
    hcompiles (namesDecls_valueDecls p ▸ hnames) hprimitive
  refine ⟨compiled, run?_eq_some_iff.2 ⟨?_, ?_⟩, hconv⟩
  · rw [FreshSupply.inRange_iff, hlast e hnames, hsame]
    exact hrange
  · rw [compile, elaborate, henclose, forProgram_eq p hnames, hresult]
    dsimp only
    rw [hcompiled]
    rfl

/-- A function of a program applied to values has a core expression, and no variable but the
function. -/
theorem generates_app_values {f : String} (hf : clausesOf f p.valueDecls ≠ [])
    (values : List Value) :
    Grammar.core.Generates (.app (.var f) (values.map Value.toExpr))
      ∧ (app (.var f) (values.map Value.toExpr)).names = [f]
      ∧ f ∈ p.valueDecls.flatMap Decl.boundNames := by
  refine ⟨Grammar.generates_app.2 ⟨Grammar.generates_var f,
    List.forall_mem_map.2 fun value _ => value.generates_toExpr⟩, ?_, ?_⟩
  · rw [Expr.names, Expr.names, ← Value.toExprs_eq_map, Value.namesList_toExprs, List.append_nil]
  · obtain ⟨clause, hclause⟩ := List.exists_mem_of_ne_nil _ hf
    exact List.mem_flatMap.2 ⟨_, mem_clausesOf.1 hclause, List.mem_singleton_self f⟩

theorem names_app_values_subset {f : String} (hf : clausesOf f p.valueDecls ≠ [])
    (values : List Value) :
    (app (.var f) (values.map Value.toExpr)).names ⊆ namesDecls p.decls := by
  obtain ⟨-, hnames, hbound⟩ := generates_app_values hf values
  rw [hnames, List.cons_subset, ← namesDecls_valueDecls]
  exact ⟨mem_namesDecls_of_mem_boundNames hbound, List.nil_subset _⟩

namespace ReadIn

variable {env : Environment} (h : p.ReadIn options env)

include h

/-- A function applied to values comes to the right-hand side of the first clause that matches, in
the environment of the program with the parts of the values for the names of the patterns. -/
theorem exists_compiled_app
    (havoids : p.firstSupply.Avoids (Digits.indexBound - p.firstSupply.next) (namesDecls p.decls))
    {f : String} (hf : clausesOf f p.valueDecls ≠ []) {values : List Value}
    (hlength : ∀ clause ∈ clausesOf f p.valueDecls, clause.1.length = values.length)
    (hvalues : ∀ value ∈ values, value.Fits size)
    (hpatterns : ∀ clause ∈ clausesOf f p.valueDecls, ∀ pattern ∈ clause.1, pattern.Fits size) :
    ∃ compiled, p.run? options (.app (.var f) (values.map Value.toExpr)) = some (.ok compiled)
      ∧ Nameless.Conv compiled.term.nameless
        ((firstMatch? values (clausesOf f p.valueDecls)).elim (.const (.primitive .bot))
          fun found => found.1.read (env.assign found.2)) := by
  obtain ⟨function, hfunction⟩ := h.exists_function f hf
  obtain ⟨clause, hclause⟩ := List.exists_mem_of_ne_nil _ hf
  obtain ⟨hcore, hnames, hbound⟩ := generates_app_values hf values
  have hread : (app (.var f) (values.map Value.toExpr)).read env
      = (env f).applyAll (values.map Value.nameless) := by
    rw [read_app, List.map_map]
    exact congrArg _ (List.map_congr_left fun value _ => value.read_toExpr env)
  obtain ⟨compiled, hcompiled, hterm⟩ := h.exists_compiled _ hcore
    (names_app_values_subset hf values) fun name hname =>
    .inr (List.mem_singleton.1 (hnames ▸ free_subset_names _ hname) ▸ hbound)
  refine ⟨compiled, hcompiled, ?_⟩
  rw [hread] at hterm
  refine hterm.trans ((hfunction.applyAll (List.forall₂_same.2 fun _ _ => .refl _)).trans ?_)
  refine function.conv_applyAll (fun number hle hlt clause hclause => ?_) hvalues
    ((function.arity clause hclause).symm.trans (hlength clause hclause)) hpatterns env
  have hnot := havoids number hle (by omega)
  exact ⟨fun hmem => hnot (mem_namesDecls_of_mem_clause hclause (.inl hmem)),
    fun hmem => hnot (mem_namesDecls_of_mem_clause hclause (.inr (free_subset_names _ hmem)))⟩

/-- The right-hand side of a clause that matches, with the parts of the values for the names of the
patterns, is read in the environment of the program. -/
theorem exists_compiled_fill (hp : FunctionClauses p.valueDecls) {f : String}
    {params : List Pattern} {body : Expr} (hclause : (params, body) ∈ clausesOf f p.valueDecls)
    {values : List Value} {bindings : List (String × Value)}
    (hmatch : Pattern.matchAll? params values = some bindings) :
    ∃ compiled, p.run? options (body.fill bindings) = some (.ok compiled)
      ∧ Nameless.Conv compiled.term.nameless (body.read (env.assign bindings)) := by
  have hbody : Grammar.core.Generates body := hp.generates hclause
  have hnames : (body.fill bindings).names ⊆ namesDecls p.decls := fun name hname =>
    mem_namesDecls_of_mem_clause hclause (.inr (names_fill_subset hbody bindings hname))
  have hfree : ∀ name ∈ (body.fill bindings).free, name ∈ freeDecls p.valueDecls := by
    intro name hname
    obtain ⟨hmem, hfilled⟩ := mem_free_fill hbody hname
    rw [Pattern.mem_map_fst_of_matchAll? params hmatch] at hfilled
    refine mem_freeDecls.2 ⟨_, mem_clausesOf.1 hclause, ?_⟩
    rw [Decl.free, freeDecls, freeDecls, List.append_nil, mem_removeAll_iff]
    exact ⟨hmem, hfilled⟩
  rw [← read_fill hbody]
  exact h.exists_compiled _ (generates_fill hbody bindings) hnames fun name hname =>
    .inl (hfree name hname)

end ReadIn

/-- The clauses of a program are equations, and the first one that matches counts: the lambda term
of a function applied to values is convertible to that of the right-hand side of the first of its
clauses whose patterns match the values, with the parts of the values for the variables of the
patterns, and to `bot` if no clause matches.

The counter of fresh variables has to stay in the range of the machine in the run of the application.
Then it does so in the run of the right-hand side, which draws the same variables. -/
theorem clauses_are_equations (hp : FunctionClauses p.valueDecls)
    (hclosed : ∀ name ∈ (p.enclose bot).free, (Primitive.ofName? name).isSome = true)
    (options : SimplifyOptions) {f : String} (hf : clausesOf f p.valueDecls ≠ [])
    {values : List Value} (hlength : ∀ clause ∈ clausesOf f p.valueDecls,
      clause.1.length = values.length)
    (hvalues : ∀ value ∈ values, value.Fits size)
    (hpatterns : ∀ clause ∈ clausesOf f p.valueDecls, ∀ pattern ∈ clause.1, pattern.Fits size)
    (hrange : (p.lastSupply options (.app (.var f) (values.map Value.toExpr))).inRange = true) :
    ∃ compiled, p.run? options (.app (.var f) (values.map Value.toExpr)) = some (.ok compiled)
      ∧ match firstMatch? values (clausesOf f p.valueDecls) with
        | some (body, bindings) =>
          ∃ compiled', p.run? options (body.fill bindings) = some (.ok compiled')
            ∧ compiled.term.Convertible compiled'.term
        | none => compiled.term.Convertible (.primitive .bot) := by
  have hne : p.valueDecls ≠ [] := fun hnil => hf (by rw [hnil]; rfl)
  have hnames := names_app_values_subset hf values
  obtain ⟨env, henv⟩ := exists_readIn hp hne hclosed options (generates_app_values hf values).1
    hnames hrange
  have hfirst : p.firstSupply.next ≤ Digits.indexBound := by
    rw [← forProgram_eq p hnames]
    exact (next_le_lastState ..).trans (FreshSupply.inRange_iff.1 hrange).le
  obtain ⟨compiled, hcompiled, hterm⟩ :=
    henv.exists_compiled_app (avoids_firstSupply hfirst) hf hlength hvalues hpatterns
  refine ⟨compiled, hcompiled, ?_⟩
  cases hfirst : firstMatch? values (clausesOf f p.valueDecls) with
  | none =>
    rw [hfirst] at hterm
    exact Term.convertible_iff.2 hterm
  | some found =>
    rw [hfirst] at hterm
    obtain ⟨⟨params, body⟩, hclause, hsome⟩ := List.exists_of_findSome?_eq_some hfirst
    obtain ⟨bindings, hmatch, rfl⟩ := Option.map_eq_some_iff.1 hsome
    obtain ⟨compiled', hcompiled', hterm'⟩ := henv.exists_compiled_fill hp hclause hmatch
    exact ⟨compiled', hcompiled', Term.convertible_iff.2 (hterm.trans hterm'.symm)⟩

/-- Functions of one argument whose clauses have core expressions. -/
theorem functionClauses_of_unary (h : ∀ decl ∈ decls, ∃ name pattern body,
    decl = .clause name [pattern] body ∧ Grammar.core.Generates body) : FunctionClauses decls := by
  have hmem {name : String} {clause : List Pattern × Expr}
      (hclause : clause ∈ clausesOf name decls) :
      clause.1.length = 1 ∧ Grammar.core.Generates clause.2 := by
    obtain ⟨name', pattern, body, heq, hbody⟩ := h _ (mem_clausesOf.1 hclause)
    obtain ⟨-, hparams, rfl⟩ := Decl.clause.inj heq
    exact ⟨congrArg List.length hparams, hbody⟩
  constructor
  case isClause =>
    intro decl hdecl
    obtain ⟨name, pattern, body, rfl, -⟩ := h decl hdecl
    exact ⟨name, [pattern], body, rfl⟩
  case ne_nil =>
    intro name clause hclause
    exact List.ne_nil_of_length_pos (by rw [(hmem hclause).1]; exact Nat.one_pos)
  case length_eq =>
    intro name clause hclause other hother
    rw [(hmem hclause).1, (hmem hother).1]
  case exists_core =>
    exact fun name clause hclause => Core.exists_ofExpr_eq_ok_iff.2 (hmem hclause).2

/-- Two functions with their clauses mixed: `swap (Pair x y) = tag (y, x)`, `tag (0, y) = y`,
`swap z = z`, `tag p = p`. -/
def swapAndTag : Program :=
  ⟨[.clause "swap" [.con "Pair" [.var "x", .var "y"]]
      (.app (.var "tag") [.tuple [.var "y", .var "x"]]),
    .clause "tag" [.tuple [.lit (.int 0), .var "y"]] (.var "y"),
    .clause "swap" [.var "z"] (.var "z"),
    .clause "tag" [.var "p"] (.var "p")]⟩

theorem functionClauses_swapAndTag : FunctionClauses swapAndTag.valueDecls := by
  have hdecls : swapAndTag.valueDecls = swapAndTag.decls := rfl
  rw [hdecls]
  refine functionClauses_of_unary ?_
  simp [swapAndTag, Grammar.generates_app, Grammar.generates_tuple]

theorem clauses_are_equations_swapAndTag :
    ∃ compiled compiled',
      swapAndTag.run? ⟨.validate, true⟩
          (.app (.var "swap") [.app (.con "Pair") [.lit (.int 1), .lit (.int 2)]])
            = some (.ok compiled)
        ∧ swapAndTag.run? ⟨.validate, true⟩
          (.app (.var "tag") [.tuple [.lit (.int 2), .lit (.int 1)]]) = some (.ok compiled')
        ∧ compiled.term.Convertible compiled'.term := by
  have hvalues : ∀ value ∈ [Value.con "Pair" [.lit (.int 1), .lit (.int 2)]],
      value.Fits fun _ => 2 := by
    refine List.forall_mem_singleton.2 (.con rfl ?_)
    simp [Value.Fits.lit]
  have hpatterns : ∀ clause ∈ clausesOf "swap" swapAndTag.valueDecls, ∀ pattern ∈ clause.1,
      pattern.Fits fun _ => 2 := by
    have hclauses : (clausesOf "swap" swapAndTag.valueDecls).map Prod.fst
        = [[.con "Pair" [.var "x", .var "y"]], [.var "z"]] := rfl
    have hpair : Pattern.Fits (fun _ => 2) (.con "Pair" [.var "x", .var "y"]) :=
      .con rfl (by simp [Pattern.Fits.var])
    intro clause hclause
    have hmem := List.mem_map_of_mem (f := Prod.fst) hclause
    rw [hclauses, List.mem_pair] at hmem
    obtain heq | heq := hmem
    · exact heq ▸ List.forall_mem_singleton.2 hpair
    · exact heq ▸ List.forall_mem_singleton.2 (.var "z")
  have hfirst : firstMatch? [.con "Pair" [.lit (.int 1), .lit (.int 2)]]
      (clausesOf "swap" swapAndTag.valueDecls)
      = some (.app (.var "tag") [.tuple [.var "y", .var "x"]],
        [("y", .lit (.int 2)), ("x", .lit (.int 1))]) := by
    cbv
  have h := clauses_are_equations functionClauses_swapAndTag (by decide +kernel)
    ⟨.validate, true⟩ (by decide +kernel) (by decide +kernel) hvalues hpatterns (by cbv)
  rw [hfirst] at h
  obtain ⟨compiled, hcompiled, compiled', hcompiled', hconv⟩ := h
  exact ⟨compiled, compiled', hcompiled, hcompiled', hconv⟩

/-- A function that calls one whose variable is the last of the machine: `f y = x0 y` and
`x0 x18446744073709551615 = 1`. -/
def lastInPattern : Program :=
  ⟨[.clause "f" [.var "y"] (.app (.var "x0") [.var "y"]),
    .clause "x0" [.var "x18446744073709551615"] (.lit (.int 1))]⟩

/-- The application of a function to a number has no lambda term, though a clause of the function
matches every number. -/
theorem not_clauses_are_equations_lastInPattern :
    FunctionClauses lastInPattern.valueDecls
      ∧ (∀ name ∈ (lastInPattern.enclose bot).free, (Primitive.ofName? name).isSome = true)
      ∧ clausesOf "f" lastInPattern.valueDecls = [([.var "y"], .app (.var "x0") [.var "y"])]
      ∧ firstMatch? [.lit (.int 2)] (clausesOf "f" lastInPattern.valueDecls)
        = some (.app (.var "x0") [.var "y"], [("y", .lit (.int 2))])
      ∧ ¬ ∃ compiled, lastInPattern.run? ⟨.validate, true⟩ (.app (.var "f") [.lit (.int 2)])
        = some (.ok compiled) := by
  refine ⟨functionClauses_of_unary ?_, by decide +kernel, rfl, by cbv, fun ⟨compiled, h⟩ => ?_⟩
  · have hdecls : lastInPattern.valueDecls = lastInPattern.decls := rfl
    rw [hdecls]
    simp [lastInPattern, Grammar.generates_app]
  · rw [run?_eq_none_of_mem_names (by decide +kernel)] at h
    cases h

end Program

end Clausal
