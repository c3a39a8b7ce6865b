import Clausal.Constant

/-!
# Nameless terms

Lambda terms in which a bound variable is the number of abstractions between it and its binder,
so that terms that differ only in the names of bound variables are equal. An abstraction keeps
the stem of the name that it binds, which no renaming changes.

## Main results

* `Nameless.subst_subst`: two substitutions are one;
* `Nameless.instantiate_subst`: substitution commutes with filling a body;
* `Nameless.subst_of_closedAt`: a closed term is not changed by substitution.
-/

namespace Clausal

/-- A lambda term with numbers for bound variables. -/
inductive Nameless
  | bound (index : Nat)
  | free (name : String)
  | const (constant : Constant)
  | abs (stem : String) (body : Nameless)
  | app (func arg : Nameless)
  deriving DecidableEq

namespace Nameless

variable {t u : Nameless} {σ τ : Nat → Nameless} {ξ : Nat → Nat} {depth : Nat}

/-! ## Renaming and substitution -/

/-- A change of indices, below one more binder. -/
def liftIndex (ξ : Nat → Nat) : Nat → Nat
  | 0 => 0
  | i + 1 => ξ i + 1

/-- The term with its indices changed. -/
def rename (ξ : Nat → Nat) : Nameless → Nameless
  | bound i => bound (ξ i)
  | free name => free name
  | const c => const c
  | abs stem body => abs stem (body.rename (liftIndex ξ))
  | app func arg => app (func.rename ξ) (arg.rename ξ)

/-- The term as it is written below one more binder. -/
def shift (t : Nameless) : Nameless := t.rename Nat.succ

/-- The substitution that has one more term, for the innermost index. -/
def cons (t : Nameless) (σ : Nat → Nameless) : Nat → Nameless
  | 0 => t
  | i + 1 => σ i

/-- A substitution, below one more binder. -/
def under (σ : Nat → Nameless) : Nat → Nameless := cons (bound 0) fun i => (σ i).shift

/-- The term with its indices replaced. -/
def subst (σ : Nat → Nameless) : Nameless → Nameless
  | bound i => σ i
  | free name => free name
  | const c => const c
  | abs stem body => abs stem (body.subst (under σ))
  | app func arg => app (func.subst σ) (arg.subst σ)

/-- The body of an abstraction with an argument for its variable. -/
def instantiate (body arg : Nameless) : Nameless := body.subst (cons arg bound)

theorem under_bound : under bound = bound := by
  funext i
  cases i <;> rfl

theorem under_comp (σ : Nat → Nameless) (ξ : Nat → Nat) :
    under (fun i => σ (ξ i)) = fun i => under σ (liftIndex ξ i) := by
  funext i
  cases i <;> rfl

/-- A renaming is the substitution of indices. -/
theorem rename_eq_subst (t : Nameless) (ξ : Nat → Nat) :
    t.rename ξ = t.subst fun i => bound (ξ i) := by
  induction t generalizing ξ with
  | abs stem body ih => rw [rename, subst, ih, under_comp bound ξ, under_bound]
  | app func arg ihf iha => rw [rename, subst, ihf, iha]
  | bound _ | free _ | const _ => rfl

@[simp] theorem subst_bound (t : Nameless) : t.subst bound = t := by
  induction t with
  | abs stem body ih => rw [subst, under_bound, ih]
  | app func arg ihf iha => rw [subst, ihf, iha]
  | bound _ | free _ | const _ => rfl

theorem subst_rename (t : Nameless) (ξ : Nat → Nat) (σ : Nat → Nameless) :
    (t.rename ξ).subst σ = t.subst fun i => σ (ξ i) := by
  induction t generalizing ξ σ with
  | abs stem body ih => rw [rename, subst, subst, ih, under_comp σ ξ]
  | app func arg ihf iha => rw [rename, subst, subst, ihf, iha]
  | bound _ | free _ | const _ => rfl

theorem rename_rename (t : Nameless) (ξ ζ : Nat → Nat) :
    (t.rename ξ).rename ζ = t.rename fun i => ζ (ξ i) := by
  rw [rename_eq_subst _ ζ, subst_rename, ← rename_eq_subst]

theorem shift_rename (t : Nameless) (ξ : Nat → Nat) :
    t.shift.rename (liftIndex ξ) = (t.rename ξ).shift := by
  rw [shift, shift, rename_rename, rename_rename]
  rfl

theorem rename_subst (t : Nameless) (σ : Nat → Nameless) (ξ : Nat → Nat) :
    (t.subst σ).rename ξ = t.subst fun i => (σ i).rename ξ := by
  induction t generalizing σ ξ with
  | abs stem body ih =>
    have hunder : (fun i => (under σ i).rename (liftIndex ξ)) = under fun i => (σ i).rename ξ := by
      funext i
      cases i with
      | zero => rfl
      | succ i => exact shift_rename (σ i) ξ
    rw [subst, rename, ih, hunder, subst]
  | app func arg ihf iha => rw [subst, rename, ihf, iha, subst]
  | bound _ | free _ | const _ => rfl

/-- What is written below one more binder does not see the innermost index. -/
theorem shift_subst (t : Nameless) (σ : Nat → Nameless) :
    t.shift.subst σ = t.subst fun i => σ (i + 1) :=
  subst_rename t Nat.succ σ

/-- Two substitutions are one. -/
theorem subst_subst (t : Nameless) (σ τ : Nat → Nameless) :
    (t.subst σ).subst τ = t.subst fun i => (σ i).subst τ := by
  induction t generalizing σ τ with
  | abs stem body ih =>
    have hunder : (fun i => (under σ i).subst (under τ)) = under fun i => (σ i).subst τ := by
      funext i
      cases i with
      | zero => rfl
      | succ i => exact (shift_subst (σ i) (under τ)).trans (rename_subst (σ i) τ Nat.succ).symm
    rw [subst, subst, ih, hunder, subst]
  | app func arg ihf iha => rw [subst, subst, ihf, iha, subst]
  | bound _ | free _ | const _ => rfl

@[simp] theorem instantiate_shift (t arg : Nameless) : t.shift.instantiate arg = t := by
  rw [instantiate, shift_subst]
  exact t.subst_bound

/-- A body that was put under a substitution and then filled is filled at once. -/
theorem subst_under_instantiate (body arg : Nameless) (σ : Nat → Nameless) :
    (body.subst (under σ)).instantiate arg = body.subst (cons arg σ) := by
  have hcons : (fun i => (under σ i).subst (cons arg bound)) = cons arg σ := by
    funext i
    cases i with
    | zero => rfl
    | succ i => exact instantiate_shift (σ i) arg
  rw [instantiate, subst_subst, hcons]

/-- Substitution commutes with filling a body. -/
theorem instantiate_subst (body arg : Nameless) (σ : Nat → Nameless) :
    (body.instantiate arg).subst σ = (body.subst (under σ)).instantiate (arg.subst σ) := by
  have hcons : (fun i => (cons arg bound i).subst σ) = cons (arg.subst σ) σ := by
    funext i
    cases i <;> rfl
  rw [subst_under_instantiate, instantiate, subst_subst, hcons]

/-! ## Closed terms -/

/-- Whether every variable of a term is an index below a depth. -/
def ClosedAt (depth : Nat) : Nameless → Prop
  | bound i => i < depth
  | free _ => False
  | const _ => True
  | abs _ body => body.ClosedAt (depth + 1)
  | app func arg => func.ClosedAt depth ∧ arg.ClosedAt depth

/-- Whether a term has no free variables. -/
def Closed (t : Nameless) : Prop := t.ClosedAt 0

/-- Substitution changes only the indices that a term has. -/
theorem subst_of_closedAt (h : t.ClosedAt depth) (hσ : ∀ i < depth, σ i = bound i) :
    t.subst σ = t := by
  induction t generalizing depth σ with
  | bound i => exact hσ i h
  | free _ => exact h.elim
  | const _ => rfl
  | abs stem body ih =>
    rw [subst, ih h]
    rintro (_ | i) hi
    · rfl
    · rw [under, cons, hσ i (Nat.lt_of_succ_lt_succ hi)]
      rfl
  | app func arg ihf iha => rw [subst, ihf h.1 hσ, iha h.2 hσ]

theorem Closed.subst (h : t.Closed) (σ : Nat → Nameless) : t.subst σ = t :=
  subst_of_closedAt h nofun

theorem Closed.shift (h : t.Closed) : t.shift = t := by
  rw [Nameless.shift, rename_eq_subst, h.subst]

theorem closedAt_rename {depth' : Nat} (h : ∀ i, ξ i < depth' ↔ i < depth) :
    (t.rename ξ).ClosedAt depth' ↔ t.ClosedAt depth := by
  induction t generalizing ξ depth depth' with
  | bound i => exact h i
  | free _ | const _ => exact Iff.rfl
  | abs stem body ih =>
    refine ih fun i => ?_
    cases i with
    | zero => simp [liftIndex]
    | succ i => simp [liftIndex, h i]
  | app func arg ihf iha => exact and_congr (ihf h) (iha h)

theorem closedAt_shift : t.shift.ClosedAt (depth + 1) ↔ t.ClosedAt depth :=
  closedAt_rename fun _ => Nat.succ_lt_succ_iff

/-- A term is closed if what replaces its indices is. -/
theorem closedAt_subst {depth' : Nat} (h : t.ClosedAt depth)
    (hσ : ∀ i < depth, (σ i).ClosedAt depth') : (t.subst σ).ClosedAt depth' := by
  induction t generalizing depth depth' σ with
  | bound i => exact hσ i h
  | free _ => exact h.elim
  | const _ => trivial
  | abs stem body ih =>
    refine ih h ?_
    rintro (_ | i) hi
    · exact Nat.succ_pos depth'
    · exact closedAt_shift.2 (hσ i (Nat.lt_of_succ_lt_succ hi))
  | app func arg ihf iha => exact ⟨ihf h.1 hσ, iha h.2 hσ⟩

theorem Closed.closedAt (h : t.Closed) (depth : Nat) : t.ClosedAt depth :=
  t.subst_bound ▸ closedAt_subst h nofun

/-- A body with a closed term for its variable is closed. -/
theorem ClosedAt.instantiate {body arg : Nameless} (hbody : body.ClosedAt (depth + 1))
    (harg : arg.ClosedAt depth) : (body.instantiate arg).ClosedAt depth := by
  refine closedAt_subst hbody ?_
  rintro (_ | i) hi
  · exact harg
  · exact Nat.lt_of_succ_lt_succ hi

/-! ## Spines -/

/-- What the arguments of a term are applied to. -/
def head : Nameless → Nameless
  | app func _ => func.head
  | t => t

/-- The arguments to which the head of a term is applied. -/
def args : Nameless → List Nameless
  | app func arg => func.args ++ [arg]
  | _ => []

/-- A term applied to arguments, from left to right. -/
def applyAll (func : Nameless) (args : List Nameless) : Nameless := args.foldl app func

@[simp] theorem applyAll_nil (func : Nameless) : func.applyAll [] = func := rfl

@[simp] theorem applyAll_cons (func arg : Nameless) (args : List Nameless) :
    func.applyAll (arg :: args) = (app func arg).applyAll args := rfl

theorem applyAll_concat (func arg : Nameless) (args : List Nameless) :
    func.applyAll (args ++ [arg]) = app (func.applyAll args) arg :=
  List.foldl_append

theorem applyAll_append (func : Nameless) (args args' : List Nameless) :
    func.applyAll (args ++ args') = (func.applyAll args).applyAll args' :=
  List.foldl_append

theorem head_applyAll (func : Nameless) (args : List Nameless) :
    (func.applyAll args).head = func.head := by
  induction args generalizing func with
  | nil => rfl
  | cons arg args ih => exact ih _

theorem args_applyAll (func : Nameless) (args : List Nameless) :
    (func.applyAll args).args = func.args ++ args := by
  induction args generalizing func with
  | nil => simp
  | cons arg args ih => simp [ih, Nameless.args]

/-- A term is its head applied to its arguments. -/
@[simp] theorem applyAll_head_args (t : Nameless) : t.head.applyAll t.args = t := by
  induction t with
  | app func arg ih _ => simp [head, args, applyAll_append, ih]
  | bound _ | free _ | const _ | abs _ _ => rfl

/-- A spine that a constant heads is determined by the constant and the arguments. -/
theorem const_applyAll_inj {c c' : Constant} {args args' : List Nameless} :
    (const c).applyAll args = (const c').applyAll args' ↔ c = c' ∧ args = args' := by
  constructor
  · intro h
    have hhead := congrArg head h
    have hargs := congrArg Nameless.args h
    rw [head_applyAll, head_applyAll] at hhead
    rw [args_applyAll, args_applyAll] at hargs
    exact ⟨const.inj hhead, hargs⟩
  · rintro ⟨rfl, rfl⟩
    rfl

theorem subst_applyAll (func : Nameless) (args : List Nameless) (σ : Nat → Nameless) :
    (func.applyAll args).subst σ = (func.subst σ).applyAll (args.map (subst σ)) := by
  induction args generalizing func with
  | nil => rfl
  | cons arg args ih => exact ih _

theorem closedAt_applyAll {func : Nameless} {args : List Nameless} :
    (func.applyAll args).ClosedAt depth
      ↔ func.ClosedAt depth ∧ ∀ arg ∈ args, arg.ClosedAt depth := by
  induction args generalizing func with
  | nil => simp
  | cons arg args ih => simp [ih, ClosedAt, and_assoc]

end Nameless

end Clausal
