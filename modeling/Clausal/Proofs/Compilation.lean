import Clausal.Proofs.Core.FromSurface
import Clausal.Proofs.Overflow
import Clausal.Proofs.Simplification.Passes

/-!
# Totality of compilation

Compilation ends for every program, whatever the options: no pass can go on changing an
expression, and what a pass leaves is a fixpoint of its rules. It succeeds for the programs that
hold nothing which no pass removes, unless the counter of fresh variables overflows.

## Main results

* `Program.Admissible`: the programs with an expression that compile;
* `Program.run_total`: every pass reaches its fixpoint, and admissible programs compile.
-/

namespace Clausal.Program

variable {options : SimplifyOptions} {p : Program} {e : Expr}

/-- A program with an expression in which every lambda has a parameter, no block declares a data
type, values are declared by irrefutable patterns, and clauses agree if they are checked. The
program itself may declare data types. -/
def Admissible (options : SimplifyOptions) (p : Program) (e : Expr) : Prop :=
  (Grammar.source options).Generates (p.enclose e)

/-- A further round of a pass changes nothing in what the pass has left. -/
theorem round_of_mem_snapshots {pass : Pass} {e' : Expr}
    (h : (pass, e') ∈ (p.elaborate options e).snapshots) (supply : FreshSupply) :
    round options pass.rules supply e' = ⟨[], .ok (e', supply)⟩ :=
  round_eq_self_iff.2 (idle_of_mem_snapshots h)

/-- Clause fusion is the first pass and the only one that can fail. -/
theorem snapshots_of_elaborate_eq_error {error : ClauseError}
    (h : (p.elaborate options e).result = .error error) :
    (p.elaborate options e).snapshots = [] ∧ options.arityCheck = .validate := by
  obtain ⟨hvalidate, done, pass, left, hpasses, hfusion, hdone⟩ := runPasses_eq_error h
  refine ⟨List.map_eq_nil_iff.1 (hdone.trans ?_), hvalidate⟩
  cases done with
  | nil => rfl
  -- no later pass has clause fusion among its rules
  | cons first done =>
    have hpass : pass ∈ [Pass.elaboration, .groupNesting, .reelaboration] := by
      rw [(List.cons.inj hpasses).2]
      exact List.mem_append_right done List.mem_cons_self
    cases pass with
    | clauseFusion => simp at hpass
    | elaboration | groupNesting | reelaboration => exact absurd hfusion (by decide)

/-- Admissible programs compile. -/
theorem Admissible.exists_compiled (h : p.Admissible options e) :
    ∃ compiled, p.compile options e = .ok compiled := by
  obtain ⟨e', hresult, hcore⟩ := runPasses_generates (.forProgram p e) h
  obtain ⟨core, hofExpr⟩ := Core.exists_ofExpr_eq_ok_iff.2 hcore
  refine ⟨⟨core, core.toTerm⟩, ?_⟩
  have helaborate : (p.elaborate options e).result = .ok e' := hresult
  rw [compile, helaborate]
  dsimp only
  rw [Expr.compiled, hofExpr]
  rfl

/-- Compilation is total. No pass goes on changing an expression forever; what a pass leaves, a
further round of it does not change; all four passes are run unless the check of clauses is asked
for and fails; and a run for an admissible program succeeds if the counter of fresh variables stays
in the range of the machine. -/
theorem run_total (options : SimplifyOptions) (p : Program) (e : Expr) :
    (∀ pass : Pass, WellFounded fun after before => Changes options pass.rules before after)
      ∧ (∀ pass e', (pass, e') ∈ (p.elaborate options e).snapshots →
        ∀ supply, round options pass.rules supply e' = ⟨[], .ok (e', supply)⟩)
      ∧ ((∃ e', (p.elaborate options e).result = .ok e'
          ∧ (p.elaborate options e).snapshots.map Prod.fst = Pass.all)
        ∨ ∃ error, (p.elaborate options e).result = .error error
          ∧ (p.elaborate options e).snapshots = [] ∧ options.arityCheck = .validate)
      ∧ (p.Admissible options e → (p.lastSupply options e).inRange = true →
        ∃ compiled, p.run? options e = some (.ok compiled)) := by
  refine ⟨fun pass => wellFounded_changes options pass.rules,
    fun pass e' h supply => round_of_mem_snapshots h supply, ?_, fun hadmissible hrange => ?_⟩
  · cases hresult : (p.elaborate options e).result with
    | ok e' => exact .inl ⟨e', rfl, snapshots_of_runPasses_eq_ok hresult⟩
    | error error => exact .inr ⟨error, rfl, snapshots_of_elaborate_eq_error hresult⟩
  · obtain ⟨compiled, hcompiled⟩ := hadmissible.exists_compiled
    exact ⟨compiled, run?_eq_some_iff.2 ⟨hrange, hcompiled⟩⟩

/-- A program with a clause of a pattern and a lambda of two parameters:
`fst (a, _) = (\x _ -> x) a a`. -/
def firstOfPair : Program :=
  ⟨[.clause "fst" [.tuple [.var "a", .wildcard]]
    (.app (.lam [.var "x", .wildcard] (.var "x")) [.var "a", .var "a"])]⟩

theorem run_total_firstOfPair :
    firstOfPair.Admissible ⟨.validate, true⟩
        (.app (.var "fst") [.tuple [.lit (.int 1), .lit (.int 2)]])
      ∧ ∃ compiled, firstOfPair.run? ⟨.validate, true⟩
        (.app (.var "fst") [.tuple [.lit (.int 1), .lit (.int 2)]]) = some (.ok compiled) := by
  have hadmissible : firstOfPair.Admissible ⟨.validate, true⟩
      (.app (.var "fst") [.tuple [.lit (.int 1), .lit (.int 2)]]) := by
    simp [Admissible, firstOfPair, enclose, valueDecls, Decl.data?, Grammar.generates_letIn,
      Grammar.generates_app, Grammar.generates_tuple, Grammar.generates_lam, Grammar.source,
      Decl.outline, Decl.Binds, Decl.ClausesAgree, Decl.arity?]
  exact ⟨hadmissible, (run_total _ _ _).2.2.2 hadmissible (by cbv)⟩

/-- A variable alone is admissible, but no run starts past the last variable of the machine. -/
theorem not_run_total_lastVariable :
    (⟨[]⟩ : Program).Admissible ⟨.validate, true⟩ (.var "x18446744073709551615")
      ∧ ¬ ∃ compiled, (⟨[]⟩ : Program).run? ⟨.validate, true⟩ (.var "x18446744073709551615")
        = some (.ok compiled) := by
  refine ⟨Grammar.generates_var _, fun ⟨compiled, h⟩ => ?_⟩
  rw [run?_eq_none_of_mem_names (by decide +kernel)] at h
  cases h

end Clausal.Program
