import Clausal.Core.FromSurface
import Clausal.Core.ToTerm
import Clausal.Simplification.Fixpoint

/-!
# Compilation

A program with an expression becomes one block around the expression, which four passes simplify,
each to its fixpoint. What comes out is a core expression, and so a lambda term.

Group nesting makes tuple bindings of the groups with several members. The last pass repeats the
second one for them.

A run of the compiler on the machine is aborted when the counter of fresh variables overflows. Then
it has no result, not even an error.
-/

namespace Clausal

/-- A pass of the compilation. -/
inductive Pass
  | clauseFusion
  | elaboration
  | groupNesting
  | reelaboration
  deriving DecidableEq

namespace Pass

/-- The name of a pass. -/
def name : Pass → String
  | clauseFusion => "clause-fusion"
  | elaboration => "elaboration"
  | groupNesting => "group-nesting"
  | reelaboration => "reelaboration"

/-- The passes, in order. -/
def all : List Pass := [clauseFusion, elaboration, groupNesting, reelaboration]

/-- The rules of a pass, in the order in which a round tries them. -/
def rules : Pass → List Rule
  | clauseFusion => [.clauseFusion]
  | elaboration | reelaboration =>
    [.currying, .patternLambda, .caseElimination, .letTupleFlattening]
  | groupNesting => [.groupNesting]

end Pass

/-- What some passes come to. -/
structure Elaboration where
  /-- The expression after each pass that ended without an error. -/
  snapshots : List (Pass × Expr)
  /-- The rules that fired, in order. -/
  fired : List Rule
  /-- The expression after the last pass. -/
  result : Except ClauseError Expr

/-- Runs passes, one after the other, until one fails. -/
def runPasses (options : SimplifyOptions) : List Pass → FreshSupply → Expr → Elaboration
  | [], _, e => ⟨[], [], .ok e⟩
  | pass :: passes, supply, e =>
    let run := toFixpoint options pass.rules supply e
    match run.result with
    | .error error => ⟨[], run.fired, .error error⟩
    | .ok (e, supply) =>
      let rest := runPasses options passes supply e
      ⟨(pass, e) :: rest.snapshots, run.fired ++ rest.fired, rest.result⟩

/-- The state in which some passes end, with or without an error. -/
def lastState (options : SimplifyOptions) (passes : List Pass) (supply : FreshSupply) (e : Expr) :
    Expr × FreshSupply :=
  replay options (runPasses options passes supply e).fired (e, supply)

/-- Why a program does not compile. -/
inductive CompileError
  /-- The clauses of a name make no function. -/
  | clauses (error : ClauseError)
  /-- A construct is left that has no core expression. -/
  | tooComplex (error : TooComplex)

/-- The text of the error. -/
def CompileError.message : CompileError → String
  | .clauses error => error.message
  | .tooComplex error => error.message

/-- A compiled program. -/
structure Compiled where
  /-- The core expression. -/
  core : Core
  /-- The lambda term. -/
  term : Term

/-- The core expression and the lambda term of a surface expression that is simplified already. -/
def Expr.compiled (e : Expr) : Except TooComplex Compiled :=
  (Core.ofExpr e).map fun core => ⟨core, core.toTerm⟩

namespace Program

/-- Simplifies a program with an expression in its scope. -/
def elaborate (options : SimplifyOptions) (p : Program) (e : Expr) : Elaboration :=
  runPasses options Pass.all (.forProgram p e) (p.enclose e)

/-- Compiles a program with an expression in its scope. -/
def compile (options : SimplifyOptions) (p : Program) (e : Expr) : Except CompileError Compiled :=
  match (p.elaborate options e).result with
  | .error error => .error (.clauses error)
  | .ok e => e.compiled.mapError .tooComplex

/-- The supply with which the simplification of a program ends, with or without an error. -/
def lastSupply (options : SimplifyOptions) (p : Program) (e : Expr) : FreshSupply :=
  (lastState options Pass.all (.forProgram p e) (p.enclose e)).2

/-- A run of the compiler, unless it is aborted. The counter of fresh variables only goes up, so it
has stayed in the range of the machine if it is there at the end. -/
def run? (options : SimplifyOptions) (p : Program) (e : Expr) :
    Option (Except CompileError Compiled) :=
  if (p.lastSupply options e).inRange then some (p.compile options e) else none

end Program

end Clausal
