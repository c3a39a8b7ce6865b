import Clausal.Constant

/-!
# Core expressions

What is left of a program when all patterns, clauses and cases are gone: functions of one
variable, applications to one argument, and blocks of one binding.
-/

namespace Clausal

/-- A core expression. -/
inductive Core
  | var (name : String)
  | const (constant : Constant)
  | app (func arg : Core)
  | tuple (elements : List Core)
  /-- `if condition then positive else negative`. -/
  | cond (condition positive negative : Core)
  | lam (param : String) (body : Core)
  /-- A binding. The name may appear in its own value. -/
  | letIn (name : String) (value body : Core)

end Clausal
