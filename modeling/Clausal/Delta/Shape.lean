import Clausal.Term

/-!
# The shape of a term

How far a term is evaluated, as far as a rule that is strict in it looks.
-/

namespace Clausal

/-- How far a term is evaluated. -/
inductive Shape
  | literal (value : Literal)
  /-- A tuple with all of its components. -/
  | tuple (size : Nat) (components : List Term)
  /-- A data constructor applied to its fields. -/
  | data (constructor : String) (fields : List Term)
  /-- An abstraction, or a primitive without all of its arguments. -/
  | function
  /-- A term that may have a step, or that is stuck. -/
  | pending
  deriving DecidableEq

/-- The shape of a constant applied to arguments. -/
def Constant.shape (c : Constant) (args : List Term) : Shape :=
  match c with
  | .literal value => if args.isEmpty then .literal value else .pending
  | .constructor name => .data name args
  | .primitive (.tuple size) =>
    if args.length = size then .tuple size args
    else if args.length < size then .function
    else .pending
  | .primitive p =>
    match p.arity? with
    | some arity => if args.length < arity then .function else .pending
    | none => .pending

/-- The shape of a term. -/
def Term.shape (t : Term) : Shape :=
  match t.head with
  | .const c => c.shape t.args
  | .abs _ _ => if t.args.isEmpty then .function else .pending
  | _ => .pending

end Clausal
