import Clausal.Dependency
import Clausal.Matching

/-!
# Simplification rules

The six rules that turn a surface program into one of single bindings, single-variable lambdas
and conditionals. Each rule changes one node; it does not look for a place to apply.

* `clauseFusion` makes one function of all the clauses of a name;
* `currying` and `patternLambda` leave lambdas of one variable;
* `caseElimination` expands a case into tests;
* `letTupleFlattening` turns a tuple binding into one of a variable;
* `groupNesting` splits a block into a nest of blocks, one for each dependency group.
-/

namespace Clausal

/-- Whether the clauses of a function are checked to agree. -/
inductive ArityCheck
  /-- Clauses of one name need the same number of patterns. -/
  | validate
  /-- Anything goes. -/
  | unchecked
  deriving DecidableEq

/-- The choices left to the caller of the rules. -/
structure SimplifyOptions where
  /-- Whether clauses are checked. -/
  arityCheck : ArityCheck := .validate
  /-- Whether the rest of a match that several tests fall back to is bound to a variable, and
  not copied. -/
  shareFallthrough : Bool := true

/-- Why the clauses of a function make no function. -/
inductive ClauseError
  /-- Two clauses have different numbers of patterns. -/
  | arityMismatch (name : String) (expected found : Nat)
  /-- A name without patterns has several clauses. -/
  | duplicateDefinition (name : String) (clauses : Nat)

/-- The text of a clause error. -/
def ClauseError.message : ClauseError → String
  | .arityMismatch name expected found =>
    "clauses of `" ++ name ++ "` disagree on arity: expected " ++ toString expected
      ++ " patterns, found " ++ toString found
  | .duplicateDefinition name clauses =>
    "`" ++ name ++ "` is defined " ++ toString clauses ++ " times"

/-- The outcome of an attempt to change something: an error, nothing to do, or the result with the fresh
variables left. -/
abbrev Attempt (α : Type) := Except ClauseError (Option (α × FreshSupply))

namespace Attempt

variable {α β : Type}

/-- Changes the result of an attempt. -/
def map (f : α → β) (attempt : Attempt α) : Attempt β :=
  Except.map (Option.map fun (a, supply) => (f a, supply)) attempt

/-- A second attempt if there is nothing to do in the first. -/
def orElse (first : Attempt α) (second : Unit → Attempt α) : Attempt α :=
  match first with
  | .ok none => second ()
  | attempt => attempt

end Attempt

/-! ## Clause fusion -/

/-- The patterns and the right-hand side of every clause of a name. -/
def clausesOf (name : String) (decls : List (Decl Expr)) : List (List Pattern × Expr) :=
  decls.filterMap fun
    | .clause other params body => if other = name then some (params, body) else none
    | _ => none

/-- The declarations that are not clauses of a name. -/
def withoutClausesOf (name : String) (decls : List (Decl Expr)) : List (Decl Expr) :=
  decls.filter fun
    | .clause other _ _ => other != name
    | _ => true

/-- The error in the clauses of a name: the first later clause with another number of patterns,
or a second clause of a name without patterns. -/
def clauseError? (name : String) (params : List Pattern) (later : List (List Pattern × Expr)) :
    Option ClauseError :=
  match later.find? fun (other, _) => other.length != params.length with
  | some (other, _) => some (.arityMismatch name params.length other.length)
  | none =>
    if params.isEmpty && !later.isEmpty then some (.duplicateDefinition name (1 + later.length))
    else none

/-- The value that the clauses of a name define: a function of fresh variables, as many as the
first clause has patterns, that matches them with the patterns of each clause in turn. The first
clause alone counts if it has no patterns. -/
def fusedValue (params : List Pattern) (body : Expr) (later : List (List Pattern × Expr))
    (supply : FreshSupply) : Expr × FreshSupply :=
  if params.isEmpty then (body, supply)
  else
    let (names, supply) := supply.drawMany params.length
    let arms := ((params, body) :: later).map fun (params, body) => ⟨.tuple params, body⟩
    (.lam (names.map .var) (.caseOf (.tuple (names.map .var)) arms), supply)

/-- Fuses the clauses of the first function that a block defines by clauses. The value takes the
place of the first clause. -/
def fuseClauses (options : SimplifyOptions) (supply : FreshSupply) :
    List (Decl Expr) → Attempt (List (Decl Expr))
  | [] => .ok none
  | .clause name params body :: decls =>
    let later := clausesOf name decls
    match if options.arityCheck = .validate then clauseError? name params later else none with
    | some error => .error error
    | none =>
      let (value, supply) := fusedValue params body later supply
      .ok (some (.value (.var name) value :: withoutClausesOf name decls, supply))
  | decl :: decls => (fuseClauses options supply decls).map (decl :: ·)

/-! ## Lambdas -/

/-- Splits a function of several patterns into functions of one pattern each. -/
def curry? : Expr → Option Expr
  | .lam (first :: second :: params) body =>
    some ((first :: second :: params).foldr (fun param body => .lam [param] body) body)
  | _ => none

/-- Moves the pattern of a function into a case on a fresh variable. -/
def liftPattern? (supply : FreshSupply) : Expr → Option (Expr × FreshSupply)
  | .lam [param] body =>
    if param.isVar then none
    else
      let (name, supply) := supply.draw
      some (.lam1 name (.caseOf (.var name) [⟨param, body⟩]), supply)
  | _ => none

/-! ## Cases -/

/-- Whether an expression can be copied into every arm: a constant, or a variable that no arm
binds. -/
def isCopyableLeaf (arms : List (Arm Expr)) : Expr → Bool
  | .var name => !arms.any fun arm => arm.pattern.binds name
  | e => e.isConstant

/-- Whether a scrutinee can be copied into every arm as it is. -/
def isCopyable (arms : List (Arm Expr)) : Expr → Bool
  | .tuple elements => elements.all (isCopyableLeaf arms)
  | e => isCopyableLeaf arms e

/-- The chain of matches that tries the arms in order and ends in `bot`. Fresh variables are drawn
for the last arm first. -/
def matchChain (share : Bool) (scrutinee : Expr) (supply : FreshSupply) :
    List (Arm Expr) → Expr × FreshSupply
  | [] => (.bot, supply)
  | ⟨pattern, body⟩ :: arms =>
    let (failure, supply) := matchChain share scrutinee supply arms
    Matching.elaborate share pattern scrutinee body failure supply

/-- Expands a case. A scrutinee that cannot be copied is bound to a fresh variable first. -/
def expandCase? (share : Bool) (supply : FreshSupply) : Expr → Option (Expr × FreshSupply)
  | .caseOf scrutinee arms =>
    if isCopyable arms scrutinee then some (matchChain share scrutinee supply arms)
    else
      let (name, supply) := supply.draw
      let (chain, supply) := matchChain share (.var name) supply arms
      some (.app1 (.lam1 name chain) scrutinee, supply)
  | _ => none

/-! ## Blocks -/

/-- Binds the value of a block with one tuple pattern to a fresh variable, and the names of the
pattern to its components, both in the right-hand side and in the body. A wildcard binds
nothing, so its right-hand side goes. -/
def flattenTuple? (supply : FreshSupply) : Expr → Option (Expr × FreshSupply)
  | .letIn [.value .wildcard _] body => some (body, supply)
  | .letIn [.value pattern value] body =>
    if pattern.isVar || !pattern.isIrrefutable then none
    else
      let (name, supply) := supply.draw
      let bound (e : Expr) := Matching.bindLazily pattern (.var name) e
      some (.letIn [.value (.var name) (bound value)] (bound body), supply)
  | _ => none

/-- The declaration that binds a group at once: a tuple of values to a tuple of patterns, unless
the group has one member. -/
def groupDecl : List (Pattern × Expr) → Decl Expr
  | [(pattern, value)] => .value pattern value
  | group => .value (.tuple (group.map Prod.fst)) (.tuple (group.map Prod.snd))

/-- A nest of blocks, one for each group, the first group outermost. Each group takes its members
out of the declarations left, which are numbered. -/
def nestBlocks (body : Expr) : List (List Nat) → List ((Pattern × Expr) × Nat) → Expr
  | [], _ => body
  | group :: groups, left =>
    let (members, left) := left.partition fun binding => group.contains binding.2
    let inner := nestBlocks body groups left
    if members.isEmpty then inner else .letIn [groupDecl (members.map Prod.fst)] inner

/-- Splits a block of several values into one block for each dependency group. -/
def nestGroups? : Expr → Option Expr
  | .letIn decls body =>
    if 2 ≤ decls.length && decls.all fun decl => decl.value?.isSome then
      let bindings := decls.filterMap Decl.value?
      some (nestBlocks body (DependencyGraph.ofBindings bindings).groups bindings.zipIdx)
    else none
  | _ => none

/-! ## The rules -/

/-- A simplification rule. -/
inductive Rule
  | clauseFusion
  | currying
  | patternLambda
  | caseElimination
  | letTupleFlattening
  | groupNesting
  deriving DecidableEq

namespace Rule

/-- The name of a rule. -/
def name : Rule → String
  | clauseFusion => "clause-fusion"
  | currying => "currying"
  | patternLambda => "pattern-lambda"
  | caseElimination => "case-elimination"
  | letTupleFlattening => "let-tuple-flattening"
  | groupNesting => "group-nesting"

/-- Every rule. -/
def all : List Rule :=
  [clauseFusion, currying, patternLambda, caseElimination, letTupleFlattening, groupNesting]

/-- Applies a rule to an expression itself, not to its parts. -/
def fire (options : SimplifyOptions) (rule : Rule) (supply : FreshSupply) (e : Expr) :
    Attempt Expr :=
  match rule with
  | clauseFusion => match e with
    | .letIn decls body => (fuseClauses options supply decls).map (.letIn · body)
    | _ => .ok none
  | currying => .ok ((curry? e).map (·, supply))
  | patternLambda => .ok (liftPattern? supply e)
  | caseElimination => .ok (expandCase? options.shareFallthrough supply e)
  | letTupleFlattening => .ok (flattenTuple? supply e)
  | groupNesting => .ok ((nestGroups? e).map (·, supply))

end Rule

end Clausal
