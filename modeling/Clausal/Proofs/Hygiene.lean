import Clausal.Proofs.Compilation
import Clausal.Proofs.Core.Lowering
import Clausal.Proofs.Simplification.FreeVariables

/-!
# Scope hygiene of compilation

No pass lets a variable escape from the binder it belongs to, and neither do core expressions and
lambda terms. What is free in the lambda term of a program was free in the program, and a program
without free variables apart from primitives compiles to a closed term.

## Main results

* `runPasses_free_subset`: the passes bring no free variable;
* `Program.compile_hygienic`: the free variables of a compiled program.
-/

namespace Clausal

variable {options : SimplifyOptions} {e e' : Expr}

/-- No sequence of passes brings a free variable. -/
theorem runPasses_free_subset {passes : List Pass} {supply : FreshSupply}
    (h : (runPasses options passes supply e).result = .ok e') : e'.free ⊆ e.free := by
  induction passes generalizing supply e with
  | nil =>
    obtain rfl : e = e' := Except.ok.inj h
    exact List.Subset.refl _
  | cons pass passes ih =>
    cases hresult : (toFixpoint options pass.rules supply e).result with
    | error error =>
      rw [(runPasses_cons_of_error hresult).2] at h
      cases h
    | ok after =>
      rw [(runPasses_cons_of_ok hresult).2] at h
      exact List.Subset.trans (ih h) (toFixpoint_free_subset hresult)

namespace Program

variable {p : Program} {compiled : Compiled}

/-- A program that compiles was simplified, and its lambda term is that of what came out. -/
theorem exists_lowers_of_compile (h : p.compile options e = .ok compiled) :
    ∃ e', (p.elaborate options e).result = .ok e'
      ∧ Core.Lowers e' compiled.core ∧ compiled.term = compiled.core.toTerm := by
  rw [compile] at h
  cases hresult : (p.elaborate options e).result with
  | error error =>
    rw [hresult] at h
    cases h
  | ok e' =>
    rw [hresult] at h
    dsimp only at h
    rw [Expr.compiled] at h
    cases hcore : Core.ofExpr e' with
    | error error =>
      rw [hcore] at h
      cases h
    | ok core =>
      rw [hcore] at h
      cases h
      exact ⟨e', rfl, Core.lowers_of_ofExpr hcore, rfl⟩

/-- A free variable of a compiled program is one of the program with its expression, and is not
the name of a primitive. So the term is closed if all free variables of the program are names of
primitives. -/
theorem compile_hygienic (h : p.compile options e = .ok compiled) :
    (∀ name ∈ compiled.term.free, name ∈ (p.enclose e).free ∧ Primitive.ofName? name = none)
      ∧ ((∀ name ∈ (p.enclose e).free, (Primitive.ofName? name).isSome = true) →
        compiled.term.isClosed = true) := by
  have hfree : ∀ name ∈ compiled.term.free,
      name ∈ (p.enclose e).free ∧ Primitive.ofName? name = none := by
    intro name hname
    obtain ⟨e', hresult, hlowers, hterm⟩ := exists_lowers_of_compile h
    rw [hterm, Core.toTerm] at hname
    obtain ⟨hmem, hscope⟩ := hlowers.mem_free_toTermIn hname
    exact ⟨runPasses_free_subset hresult hmem, hscope.resolve_left List.not_mem_nil⟩
  refine ⟨hfree, fun hprimitives => Term.isClosed_iff.2 fun name hname => ?_⟩
  obtain ⟨hmem, hnone⟩ := hfree name hname
  have hsome := hprimitives name hmem
  rw [hnone] at hsome
  contradiction

/-- A program of two functions that call each other and a primitive, with their clauses mixed:
`even 0 = true`, `odd 0 = false`, `even n = odd (minus n 1)`, `odd n = even (minus n 1)`. -/
def parity : Program :=
  let predecessor := Expr.app (.var "minus") [.var "n", .lit (.int 1)]
  ⟨[.clause "even" [.lit (.int 0)] (.lit (.bool true)),
    .clause "odd" [.lit (.int 0)] (.lit (.bool false)),
    .clause "even" [.var "n"] (.app (.var "odd") [predecessor]),
    .clause "odd" [.var "n"] (.app (.var "even") [predecessor])]⟩

theorem compile_hygienic_parity :
    ∃ compiled, parity.compile ⟨.validate, true⟩ (.app (.var "even") [.lit (.int 2)])
        = .ok compiled
      ∧ compiled.term.isClosed = true := by
  have hadmissible : parity.Admissible ⟨.validate, true⟩
      (.app (.var "even") [.lit (.int 2)]) := by
    simp [Admissible, parity, enclose, valueDecls, Decl.data?, Grammar.generates_letIn,
      Grammar.generates_app, Grammar.source, Decl.outline, Decl.Binds, Decl.ClausesAgree,
      Decl.arity?]
  obtain ⟨compiled, h⟩ := hadmissible.exists_compiled
  refine ⟨compiled, h, (compile_hygienic h).2 ?_⟩
  decide +kernel

end Program

end Clausal
