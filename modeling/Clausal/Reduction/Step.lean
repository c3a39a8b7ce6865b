import Clausal.Delta.Rule
import Clausal.Term.Substitution

/-!
# Reduction steps

A step contracts the leftmost outermost beta redex that is not under an abstraction. If there is
none, the delta rules are asked about the constant at the head of the term. A rule that needs the
value of an argument gets a step of that argument instead.
-/

namespace Clausal.Term

/-- A beta step, in the function of an application before its argument. -/
def betaStep? : Term → Option Term
  | .app (.abs param body) arg => some (body.subst param arg)
  | .app func arg =>
    match betaStep? func with
    | some func => some (.app func arg)
    | none => (betaStep? arg).map (.app func)
  | _ => none

/-- A reduction step with the given delta rules, which are asked in order. -/
def step? (rules : List DeltaRule) (t : Term) : Option Term :=
  match betaStep? t, t.head with
  | some t, _ => some t
  | none, .const c =>
    rules.findSome? fun rule =>
      match rule.respond c t.args with
      | .reduced result => some result
      | .declined => none
      | .needsArgument index =>
        match _hget : t.args[index]? with
        | some arg =>
          (step? rules arg).map fun arg => (Term.const c).applyAll (t.args.set index arg)
        | none => none
  | none, _ => none
termination_by t.size
decreasing_by exact size_lt_of_mem_args (List.mem_of_getElem? _hget)

end Clausal.Term
