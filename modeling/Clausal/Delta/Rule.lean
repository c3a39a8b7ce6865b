import Clausal.Delta.Arithmetic
import Clausal.Delta.Shape

/-!
# Delta rules

The rules that give the primitives their meaning. A rule looks at a constant and at the first
arguments that it is applied to. It reduces them, declines, or asks for an argument that is not
evaluated far enough.
-/

namespace Clausal

/-- The answer of a rule. -/
inductive Outcome
  /-- The constant and the arguments become a term. -/
  | reduced (result : Term)
  /-- The rule does not apply. -/
  | declined
  /-- The rule needs the value of the argument at an index. -/
  | needsArgument (index : Nat)
  deriving DecidableEq

namespace Outcome

/-- The answer of a test. -/
def truth (value : Bool) : Outcome := .reduced (.truth value)

end Outcome

/-- The answer that follows from the literal that the argument at an index is. Without an argument
there the rule declines, as it does for an evaluated argument that is no literal. -/
def withLiteral (args : List Term) (index : Nat) (answer : Literal → Outcome) : Outcome :=
  match args[index]?.map Term.shape with
  | some (.literal value) => answer value
  | some .pending => .needsArgument index
  | _ => .declined

/-- Whether the first operand of an operator alone decides the result, and which. -/
def Operator.shortcut? (op : Operator) (left : Literal) : Option Bool :=
  match op, left with
  | .and, .bool false => some false
  | .or, .bool true => some true
  | _, _ => none

/-- The term that packs the fields of a value: the field itself if there is one, otherwise the
tuple of the fields. -/
def fieldsTerm : List Term → Term
  | [field] => field
  | fields => (Term.primitive (.tuple fields.length)).applyAll fields

/-- The function that takes two arguments and returns the first. -/
def firstOfTwo : Term := .abs "x" (.abs "y" (.var "x"))

/-- The function that takes two arguments and returns the second. -/
def secondOfTwo : Term := .abs "x" (.abs "y" (.var "y"))

/-- A family of delta rules. -/
inductive DeltaRule
  /-- The operators with two operands. -/
  | binaryOperators
  /-- The operators with one operand. -/
  | unaryOperators
  /-- The conditional. -/
  | branch
  /-- The fixpoint. -/
  | fixpoint
  /-- The tests and projections of tuples. -/
  | tupleIntrospection
  /-- The tests and projections of data. -/
  | constructorIntrospection
  /-- The tests for a literal. -/
  | literalDiscriminators
  deriving DecidableEq

namespace DeltaRule

/-- The name of a rule. -/
def name : DeltaRule → String
  | binaryOperators => "binary-operators"
  | unaryOperators => "unary-operators"
  | branch => "branch"
  | fixpoint => "fixpoint"
  | tupleIntrospection => "tuple-introspection"
  | constructorIntrospection => "constructor-introspection"
  | literalDiscriminators => "literal-discriminators"

/-- The rules that give every primitive its meaning. -/
def standard : List DeltaRule :=
  [binaryOperators, unaryOperators, branch, fixpoint, tupleIntrospection,
    constructorIntrospection, literalDiscriminators]

/-- The number of arguments that a rule consumes. -/
def arity : DeltaRule → Nat
  | binaryOperators => 2
  | _ => 1

/-- Whether a rule is about a constant. -/
def accepts : DeltaRule → Constant → Bool
  | binaryOperators, .primitive (.operator op) => op.arity == 2
  | unaryOperators, .primitive (.operator op) => op.arity == 1
  | branch, .primitive .branch => true
  | fixpoint, .primitive .fix => true
  | tupleIntrospection, .primitive (.isTuple _) => true
  | tupleIntrospection, .primitive (.select _ _) => true
  | constructorIntrospection, .primitive (.isConstructor _) => true
  | constructorIntrospection, .primitive (.argOf _) => true
  | literalDiscriminators, .primitive (.isLiteral _) => true
  | _, _ => false

/-- Whether the arguments that a rule consumes must be closed. The fixpoint does not look at its
argument, which may be open. -/
def needsClosed : DeltaRule → Bool
  | fixpoint => false
  | _ => true

/-! ## Answers -/

/-- An operator on two operands. The second one is not asked for if the first decides. -/
def applyBinary (op : Operator) (args : List Term) : Outcome :=
  withLiteral args 0 fun left =>
    match op.shortcut? left with
    | some value => .truth value
    | none => withLiteral args 1 fun right =>
      match op.evaluate? left right with
      | some result => .reduced (.literal result)
      | none => .declined

/-- An operator on one operand. -/
def applyUnary (op : Operator) (args : List Term) : Outcome :=
  withLiteral args 0 fun operand =>
    match op, operand with
    | .not, .bool value => .truth !value
    | .negate, .int value => .reduced (.literal (.int (-value)))
    | _, _ => .declined

/-- The conditional becomes a function of the two branches that follow. -/
def applyBranch (args : List Term) : Outcome :=
  withLiteral args 0 fun condition =>
    match condition with
    | .bool true => .reduced firstOfTwo
    | .bool false => .reduced secondOfTwo
    | _ => .declined

/-- A test or projection of a tuple on a value of some shape. -/
def inspectTuple (head : Constant) (shape : Shape) : Outcome :=
  match head, shape with
  | _, .pending => .needsArgument 0
  | .primitive (.isTuple expected), .tuple size _ => .truth (size == expected)
  | .primitive (.isTuple _), _ => .truth false
  | .primitive (.select size (index + 1)), .tuple found components =>
    if found = size then
      match components[index]? with
      | some component => .reduced component
      | none => .declined
    else .declined
  | _, _ => .declined

/-- A test or projection of data on a value of some shape. -/
def inspectData (head : Constant) (shape : Shape) : Outcome :=
  match head, shape with
  | _, .pending => .needsArgument 0
  | .primitive (.isConstructor expected), .data name _ => .truth (name == expected)
  | .primitive (.isConstructor _), _ => .truth false
  | .primitive (.argOf expected), .data name fields =>
    if name = expected then .reduced (fieldsTerm fields) else .declined
  | _, _ => .declined

/-- A test for a literal on a value of some shape. -/
def inspectLiteral (head : Constant) (shape : Shape) : Outcome :=
  match head, shape with
  | .primitive (.isLiteral expected), .literal found => .truth (expected.agrees found)
  | .primitive (.isLiteral _), .pending => .needsArgument 0
  | .primitive (.isLiteral _), _ => .truth false
  | _, _ => .declined

/-- The answer of a rule to a constant and its arguments, which need not be those that the rule is
about. -/
def apply (rule : DeltaRule) (head : Constant) (args : List Term) : Outcome :=
  match rule, args with
  | binaryOperators, args => match head with
    | .primitive (.operator op) => applyBinary op args
    | _ => .declined
  | unaryOperators, args => match head with
    | .primitive (.operator op) => applyUnary op args
    | _ => .declined
  | branch, args => applyBranch args
  | fixpoint, function :: _ => .reduced (.app function (.app (.primitive .fix) function))
  | tupleIntrospection, arg :: _ => inspectTuple head arg.shape
  | constructorIntrospection, arg :: _ => inspectData head arg.shape
  | literalDiscriminators, arg :: _ => inspectLiteral head arg.shape
  | _, [] => .declined

/-- The answer of a rule to a constant applied to arguments, as reduction takes it: the rule must
accept the constant, enough arguments must be there, and those consumed must be closed if the rule
requires it. The arguments left are applied to the result. -/
def respond (rule : DeltaRule) (head : Constant) (args : List Term) : Outcome :=
  if rule.accepts head && rule.arity ≤ args.length
      && (!rule.needsClosed || (args.take rule.arity).all Term.isClosed) then
    match rule.apply head (args.take rule.arity) with
    | .reduced result => .reduced (result.applyAll (args.drop rule.arity))
    | outcome => outcome
  else .declined

end DeltaRule

/-- The text of a list of rules: their names, each in quotes. -/
def DeltaRule.listText (rules : List DeltaRule) : String :=
  "[" ++ ", ".intercalate (rules.map fun rule => "\"" ++ rule.name ++ "\"") ++ "]"

end Clausal
