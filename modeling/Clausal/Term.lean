import Clausal.Constant
import Clausal.Total

/-!
# Lambda terms

The untyped lambda calculus with constants, which programs are reduced in. Variables are named.
Every term is a head applied to a list of arguments, its spine.
-/

namespace Clausal

/-- A lambda term. -/
inductive Term
  | var (name : String)
  | const (constant : Constant)
  | abs (param : String) (body : Term)
  | app (func arg : Term)
  deriving DecidableEq

namespace Term

/-- The term of a literal. -/
def literal (value : Literal) : Term := .const (.literal value)

/-- The term of a primitive. -/
def primitive (primitive : Primitive) : Term := .const (.primitive primitive)

/-- The term of a truth value. -/
def truth (value : Bool) : Term := .literal (.bool value)

/-- The literal that a term is, if it is one. -/
def literal? : Term → Option Literal
  | .const c => c.literal?
  | _ => none

/-- The number of nodes. -/
def size : Term → Nat
  | .var _ | .const _ => 1
  | .abs _ body => body.size + 1
  | .app func arg => func.size + arg.size + 1

theorem size_pos (t : Term) : 0 < t.size := by
  cases t <;> simp [size]

/-! ## Free variables -/

/-- The free variables, in order of appearance, each as often as it appears. -/
def free : Term → List String
  | .var name => [name]
  | .const _ => []
  | .abs param body => body.free.filter (· != param)
  | .app func arg => func.free ++ arg.free

/-- Whether a term has no free variables. -/
def isClosed (t : Term) : Bool := t.free.isEmpty

/-- A variable is free under an abstraction if it is free in the body and not the parameter. -/
@[simp] theorem mem_free_abs {name param : String} {body : Term} :
    name ∈ (Term.abs param body).free ↔ name ∈ body.free ∧ name ≠ param := by
  simp [free]

/-- A variable is free in an application if it is free in one of the two parts. -/
@[simp] theorem mem_free_app {name : String} {func arg : Term} :
    name ∈ (Term.app func arg).free ↔ name ∈ func.free ∨ name ∈ arg.free := by
  simp [free]

theorem isClosed_iff {t : Term} : t.isClosed ↔ ∀ name, name ∉ t.free := by
  simp [isClosed, List.isEmpty_iff, List.eq_nil_iff_forall_not_mem]

/-! ## Spines -/

/-- What the arguments of a term are applied to. -/
def head : Term → Term
  | .app func _ => func.head
  | t => t

/-- The arguments to which the head of a term is applied. -/
def args : Term → List Term
  | .app func arg => func.args ++ [arg]
  | _ => []

/-- A term applied to arguments, from left to right. -/
def applyAll (func : Term) (args : List Term) : Term := args.foldl .app func

@[simp] theorem applyAll_nil (func : Term) : func.applyAll [] = func := rfl

@[simp] theorem applyAll_cons (func arg : Term) (args : List Term) :
    func.applyAll (arg :: args) = (Term.app func arg).applyAll args := rfl

theorem applyAll_append (func : Term) (args args' : List Term) :
    func.applyAll (args ++ args') = (func.applyAll args).applyAll args' :=
  List.foldl_append

/-- A term is its head applied to its arguments. -/
@[simp] theorem applyAll_head_args (t : Term) : t.head.applyAll t.args = t := by
  induction t with
  | app func arg ih _ => simp [head, args, applyAll_append, ih]
  | var | const | abs => rfl

theorem head_applyAll (func : Term) (args : List Term) :
    (func.applyAll args).head = func.head := by
  induction args generalizing func with
  | nil => rfl
  | cons arg args ih => simp [ih, head]

theorem args_applyAll (func : Term) (args : List Term) :
    (func.applyAll args).args = func.args ++ args := by
  induction args generalizing func with
  | nil => simp
  | cons arg args ih => simp [ih, Term.args]

/-- An argument is smaller than the whole. -/
theorem size_lt_of_mem_args {t arg : Term} (h : arg ∈ t.args) : arg.size < t.size := by
  induction t with
  | app func last ih _ =>
    simp only [args, List.mem_append, List.mem_singleton] at h
    simp only [size]
    rcases h with h | rfl
    · have := ih h
      omega
    · omega
  | var | const | abs => simp [args] at h

/-- The arguments together are smaller than the whole. -/
theorem total_size_args_lt (t : Term) : total size t.args < t.size := by
  induction t with
  | app func last ih _ =>
    simp only [args, total_append, total_cons, total_nil, size]
    omega
  | var | const | abs => simp [args, size]

end Term

end Clausal
