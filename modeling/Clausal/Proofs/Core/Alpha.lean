import Clausal.Proofs.Nameless.Alpha
import Clausal.Proofs.Surface.Reading

/-!
# Names of bound variables in core expressions

Core expressions are equal up to the names of bound variables if the variables at the same place
are bound at the same place, or are free and have one name. Functions and blocks bind variables, and
nothing keeps them from binding the name of a primitive.

The lambda term is made with the names in scope at hand, and the blocks are substituted in it, which
renames binders in turn. What comes out depends on none of the bound names: a bound variable is
never taken for the primitive of its name, and a free one is if there is such a primitive.

## Main results

* `Core.Alpha.lam_rename`, `Core.Alpha.letIn_rename`: a binder may get any name that is not used;
* `Core.AlphaIn.bare_read`: equal expressions are read the same but for stems, in environments that
  agree on what the binders around stand for;
* `Core.toTerm_alpha`: the lambda term is one of expressions up to the names of bound variables, with
  the primitives in the places of free variables and nowhere else.
-/

namespace Clausal

namespace Core

/-! ## Equality up to the names of bound variables -/

/-- Whether two names stand for one variable, in two expressions below binders of the given names,
the innermost first. -/
inductive SameVar : List (String × String) → String → String → Prop
  | free (name : String) : SameVar [] name name
  | here (x y : String) (binders : List (String × String)) : SameVar ((x, y) :: binders) x y
  | there {x y a b : String} {binders : List (String × String)} (hx : a ≠ x) (hy : b ≠ y)
      (h : SameVar binders a b) : SameVar ((x, y) :: binders) a b

mutual

/-- Equality up to the names of bound variables, of two expressions below binders of the given
names. -/
inductive AlphaIn : List (String × String) → Core → Core → Prop
  | var {binders : List (String × String)} {x y : String} (h : SameVar binders x y) :
      AlphaIn binders (.var x) (.var y)
  | const {binders : List (String × String)} (c : Constant) : AlphaIn binders (.const c) (.const c)
  | app {binders : List (String × String)} {func func' arg arg' : Core}
      (hfunc : AlphaIn binders func func') (harg : AlphaIn binders arg arg') :
      AlphaIn binders (.app func arg) (.app func' arg')
  | tuple {binders : List (String × String)} {elements elements' : List Core}
      (h : AlphaAllIn binders elements elements') :
      AlphaIn binders (.tuple elements) (.tuple elements')
  | cond {binders : List (String × String)}
      {condition condition' positive positive' negative negative' : Core}
      (hcondition : AlphaIn binders condition condition')
      (hpositive : AlphaIn binders positive positive')
      (hnegative : AlphaIn binders negative negative') :
      AlphaIn binders (.cond condition positive negative) (.cond condition' positive' negative')
  | lam {binders : List (String × String)} {x y : String} {body body' : Core}
      (h : AlphaIn ((x, y) :: binders) body body') : AlphaIn binders (.lam x body) (.lam y body')
  | letIn {binders : List (String × String)} {x y : String} {value value' body body' : Core}
      (hvalue : AlphaIn ((x, y) :: binders) value value')
      (hbody : AlphaIn ((x, y) :: binders) body body') :
      AlphaIn binders (.letIn x value body) (.letIn y value' body')

/-- The same for the expressions at the same places of two lists. -/
inductive AlphaAllIn : List (String × String) → List Core → List Core → Prop
  | nil (binders : List (String × String)) : AlphaAllIn binders [] []
  | cons {binders : List (String × String)} {e e' : Core} {es es' : List Core}
      (hfirst : AlphaIn binders e e') (hrest : AlphaAllIn binders es es') :
      AlphaAllIn binders (e :: es) (e' :: es')

end

/-- Equality up to the names of bound variables. -/
def Alpha (e e' : Core) : Prop := AlphaIn [] e e'

/-! ## Renaming -/

mutual

/-- The names in a core expression, those that it binds included. -/
def names : Core → List String
  | .var name => [name]
  | .const _ => []
  | .app func arg => func.names ++ arg.names
  | .tuple elements => namesAll elements
  | .cond condition positive negative => condition.names ++ (positive.names ++ negative.names)
  | .lam param body => param :: body.names
  | .letIn name value body => name :: (value.names ++ body.names)

/-- The names in a list of core expressions. -/
def namesAll : List Core → List String
  | [] => []
  | e :: es => e.names ++ namesAll es

end

mutual

/-- The core expression with one name for the free occurrences of another. -/
def rename (old new : String) : Core → Core
  | .var name => .var (if name = old then new else name)
  | .const c => .const c
  | .app func arg => .app (func.rename old new) (arg.rename old new)
  | .tuple elements => .tuple (renameAll old new elements)
  | .cond condition positive negative =>
    .cond (condition.rename old new) (positive.rename old new) (negative.rename old new)
  | .lam param body => .lam param (if param = old then body else body.rename old new)
  | .letIn name value body =>
    if name = old then .letIn name value body
    else .letIn name (value.rename old new) (body.rename old new)

/-- The core expressions of a list with one name for the free occurrences of another. -/
def renameAll (old new : String) : List Core → List Core
  | [] => []
  | e :: es => e.rename old new :: renameAll old new es

end

section Rename

variable {binders : List (String × String)} {old new : String}

/-- A name that is the same in both expressions stays the same below a binder of one name. -/
theorem SameVar.under {name : String} (param : String) (h : name ≠ param → SameVar binders name name) :
    SameVar ((param, param) :: binders) name name := by
  by_cases hname : name = param
  · exact hname ▸ .here name name binders
  · exact .there hname hname (h hname)

mutual

/-- An expression is equal to itself below binders that change none of its names. -/
theorem AlphaIn.refl {binders : List (String × String)} (e : Core)
    (h : ∀ name ∈ e.names, SameVar binders name name) :
    AlphaIn binders e e := by
  match e with
  | .var name => exact .var (h name (List.mem_singleton_self name))
  | .const c => exact .const c
  | .app func arg =>
    rw [names, List.forall_mem_append] at h
    exact .app (.refl func h.1) (.refl arg h.2)
  | .tuple elements => exact .tuple (.refl elements h)
  | .cond condition positive negative =>
    rw [names, List.forall_mem_append, List.forall_mem_append] at h
    exact .cond (.refl condition h.1) (.refl positive h.2.1) (.refl negative h.2.2)
  | .lam param body =>
    rw [names, List.forall_mem_cons] at h
    exact .lam (.refl body fun name hname => .under param fun _ => h.2 name hname)
  | .letIn param value body =>
    rw [names, List.forall_mem_cons, List.forall_mem_append] at h
    exact .letIn (.refl value fun name hname => .under param fun _ => h.2.1 name hname)
      (.refl body fun name hname => .under param fun _ => h.2.2 name hname)

theorem AlphaAllIn.refl {binders : List (String × String)} (es : List Core)
    (h : ∀ name ∈ namesAll es, SameVar binders name name) : AlphaAllIn binders es es := by
  match es with
  | [] => exact .nil binders
  | e :: es =>
    rw [namesAll, List.forall_mem_append] at h
    exact .cons (.refl e h.1) (.refl es h.2)

end

/-- Binders below which one name stands for another, and every other name but this for itself. -/
structure Renames (binders : List (String × String)) (old new : String) : Prop where
  renamed : SameVar binders old new
  same {name : String} (hold : name ≠ old) (hnew : name ≠ new) : SameVar binders name name

/-- A binder that shadows the old name leaves every name to itself. -/
theorem Renames.shadowed (h : Renames binders old new) {name : String} (hname : name ≠ new) :
    SameVar ((old, old) :: binders) name name :=
  .under old fun hold => h.same hold hname

theorem Renames.under (h : Renames binders old new) {param : String} (hold : param ≠ old)
    (hnew : param ≠ new) : Renames ((param, param) :: binders) old new where
  renamed := .there hold.symm hnew.symm h.renamed
  same hold' hnew' := .under param fun _ => h.same hold' hnew'

mutual

/-- An expression in which a name is changed is equal to it, below binders that change the name. -/
theorem AlphaIn.rename {binders : List (String × String)} (e : Core)
    (h : Renames binders old new) (hnew : new ∉ e.names) :
    AlphaIn binders e (e.rename old new) := by
  match e with
  | .var name =>
    rw [Core.rename]
    split
    · next hold => exact .var (hold ▸ h.renamed)
    · next hold => exact .var (h.same hold fun heq => hnew (List.mem_singleton.2 heq.symm))
  | .const c => exact .const c
  | .app func arg =>
    rw [names, List.mem_append, not_or] at hnew
    exact .app (.rename func h hnew.1) (.rename arg h hnew.2)
  | .tuple elements => exact .tuple (.rename elements h hnew)
  | .cond condition positive negative =>
    rw [names, List.mem_append, List.mem_append, not_or, not_or] at hnew
    exact .cond (.rename condition h hnew.1) (.rename positive h hnew.2.1)
      (.rename negative h hnew.2.2)
  | .lam param body =>
    rw [names, List.mem_cons, not_or] at hnew
    rw [Core.rename]
    split
    -- the binder shadows the old name
    · next hold =>
      subst hold
      exact .lam (.refl body fun name hname => h.shadowed (ne_of_mem_of_not_mem hname hnew.2))
    · next hold => exact .lam (.rename body (h.under hold (Ne.symm hnew.1)) hnew.2)
  | .letIn param value body =>
    rw [names, List.mem_cons, List.mem_append, not_or, not_or] at hnew
    obtain ⟨hparam, hvalue, hbody⟩ := hnew
    rw [Core.rename]
    split
    · next hold =>
      subst hold
      exact .letIn (.refl value fun name hname => h.shadowed (ne_of_mem_of_not_mem hname hvalue))
        (.refl body fun name hname => h.shadowed (ne_of_mem_of_not_mem hname hbody))
    · next hold =>
      have hunder := h.under hold (Ne.symm hparam)
      exact .letIn (.rename value hunder hvalue) (.rename body hunder hbody)

theorem AlphaAllIn.rename {binders : List (String × String)} (es : List Core)
    (h : Renames binders old new) (hnew : new ∉ namesAll es) :
    AlphaAllIn binders es (renameAll old new es) := by
  match es with
  | [] => exact .nil binders
  | e :: es =>
    rw [namesAll, List.mem_append, not_or] at hnew
    exact .cons (.rename e h hnew.1) (.rename es h hnew.2)

end

theorem renames_binder (old new : String) : Renames [(old, new)] old new where
  renamed := .here old new []
  same hold hnew := .there hold hnew (.free _)

/-- The variable of a function may get any name that its body does not have. -/
theorem Alpha.lam_rename {body : Core} (h : new ∉ body.names) :
    Alpha (.lam old body) (.lam new (body.rename old new)) :=
  .lam (.rename body (renames_binder old new) h)

/-- So may the name of a block. -/
theorem Alpha.letIn_rename {value body : Core} (hvalue : new ∉ value.names)
    (hbody : new ∉ body.names) :
    Alpha (.letIn old value body) (.letIn new (value.rename old new) (body.rename old new)) :=
  .letIn (.rename value (renames_binder old new) hvalue)
    (.rename body (renames_binder old new) hbody)

end Rename

/-! ## Readings -/

mutual

/-- The surface expression of a core expression. -/
def toExpr : Core → Expr
  | .var name => .var name
  | .const (.literal literal) => .lit literal
  | .const (.constructor name) => .con name
  | .const (.primitive primitive) => .prim primitive
  | .app func arg => .app1 func.toExpr arg.toExpr
  | .tuple elements => .tuple (toExprs elements)
  | .cond condition positive negative => .cond condition.toExpr positive.toExpr negative.toExpr
  | .lam param body => .lam1 param body.toExpr
  | .letIn name value body => .letIn [.value (.var name) value.toExpr] body.toExpr

/-- The surface expressions of a list of core expressions. -/
def toExprs : List Core → List Expr
  | [] => []
  | e :: es => e.toExpr :: toExprs es

end

mutual

theorem lowers_toExpr (e : Core) : Lowers e.toExpr e := by
  match e with
  | .var name => exact .var name
  | .const (.literal literal) => exact .lit literal
  | .const (.constructor name) => exact .con name
  | .const (.primitive primitive) => exact .prim primitive
  | .app func arg => exact .app (lowers_toExpr func) (.cons (lowers_toExpr arg) .nil)
  | .tuple elements => exact .tuple (lowers_toExprs elements)
  | .cond condition positive negative =>
    exact .cond (lowers_toExpr condition) (lowers_toExpr positive) (lowers_toExpr negative)
  | .lam param body => exact .lam param (lowers_toExpr body)
  | .letIn name value body => exact .letIn name (lowers_toExpr value) (lowers_toExpr body)

theorem lowers_toExprs (es : List Core) : List.Forall₂ Lowers (toExprs es) es := by
  match es with
  | [] => exact .nil
  | e :: es => exact .cons (lowers_toExpr e) (lowers_toExprs es)

end

end Core

namespace Nameless.Congruence

/-- Readings that differ in stems only. -/
theorem bare : Congruence fun _ t t' => t.bare = t'.bare where
  const _ _ := rfl
  app hf ha := by rw [Nameless.bare, Nameless.bare, hf, ha]
  abs _ h := by rw [Nameless.bare, Nameless.bare, h]
  bound _ := rfl
  shift h := by rw [bare_shift, bare_shift, h]

end Nameless.Congruence

namespace Core

/-- Environments in which names of one variable stand for the same but for stems. -/
def Agree (binders : List (String × String)) (env env' : Environment) : Prop :=
  ∀ x y, SameVar binders x y → (env x).bare = (env' y).bare

namespace Agree

variable {binders : List (String × String)} {env env' : Environment}

theorem refl (env : Environment) : Agree [] env env := by
  rintro _ _ ⟨⟩
  rfl

/-- One more variable. -/
theorem update (h : Agree binders env env') (x y : String) {t t' : Nameless}
    (ht : t.bare = t'.bare) :
    Agree ((x, y) :: binders) (Function.update env x t) (Function.update env' y t') := by
  intro a b hab
  cases hab with
  | here => rwa [Function.update_self, Function.update_self]
  | there hx hy hab =>
    rw [Function.update_of_ne hx, Function.update_of_ne hy]
    exact h a b hab

theorem bind (h : Agree binders env env') (x y : String) :
    Agree ((x, y) :: binders) (env.bind x) (env'.bind y) := by
  refine update (fun a b hab => ?_) x y rfl
  rw [Nameless.bare_shift, Nameless.bare_shift, h a b hab]

end Agree

open Nameless (Congruence)

mutual

/-- Expressions that are equal up to the names of bound variables are read the same but for stems,
in environments that agree on the variables. -/
theorem AlphaIn.bare_read {binders : List (String × String)} {e e' : Core}
    (h : AlphaIn binders e e') {env env' : Environment} (henv : Agree binders env env') :
    (e.toExpr.read env).bare = (e'.toExpr.read env').bare := by
  match h with
  | .var h => exact henv _ _ h
  | .const c => cases c <;> rfl
  | .app hfunc harg =>
    rw [toExpr, toExpr, Expr.read_app1, Expr.read_app1, Nameless.bare, Nameless.bare,
      hfunc.bare_read henv, harg.bare_read henv]
  | .tuple h =>
    rw [toExpr, toExpr, Expr.read_tuple, Expr.read_tuple]
    exact @Congruence.fieldsTerm _ 0 .bare _ _ (h.bare_read henv)
  | .cond hcondition hpositive hnegative =>
    rw [toExpr, toExpr, Expr.read_cond, Expr.read_cond]
    exact @Congruence.applyAll _ 0 .bare _ _ _ _ rfl (.cons (hcondition.bare_read henv)
      (.cons (hpositive.bare_read henv) (.cons (hnegative.bare_read henv) .nil)))
  | @AlphaIn.lam _ x y _ _ h =>
    rw [toExpr, toExpr, Expr.read_lam1, Expr.read_lam1, Nameless.bare, Nameless.bare,
      h.bare_read (henv.bind x y)]
  | @AlphaIn.letIn _ x y _ _ _ _ hvalue hbody =>
    rw [toExpr, toExpr, Expr.read_letIn rfl, Expr.read_letIn rfl]
    refine hbody.bare_read (henv.update x y ?_)
    -- the value is read below the binder of its fixpoint
    have hread := hvalue.bare_read (henv.bind x y)
    simp only [Environment.fixpoint, Environment.project_var_shift, Nameless.bare, hread]

theorem AlphaAllIn.bare_read {binders : List (String × String)} {es es' : List Core}
    (h : AlphaAllIn binders es es') {env env' : Environment} (henv : Agree binders env env') :
    List.Forall₂ (fun t t' => t.bare = t'.bare) ((toExprs es).map (Expr.read env))
      ((toExprs es').map (Expr.read env')) := by
  match h with
  | .nil _ => exact .nil
  | .cons hfirst hrest => exact .cons (hfirst.bare_read henv) (hrest.bare_read henv)

end

/-- The expression with numbers for the variables that functions bind, with the fixpoints that
blocks bind in the places of their variables, and with names for the others. -/
def nameless (e : Core) : Nameless := e.toExpr.read .free

end Core

/-! ## Primitives -/

/-- The term with primitives for the free variables that have the names of such. -/
def Nameless.withPrimitives : Nameless → Nameless
  | bound i => bound i
  | free name =>
    match Primitive.ofName? name with
    | some primitive => const (.primitive primitive)
    | none => free name
  | const c => const c
  | abs stem body => abs stem body.withPrimitives
  | app func arg => app func.withPrimitives arg.withPrimitives

namespace Nameless

theorem withPrimitives_rename (t : Nameless) (ξ : Nat → Nat) :
    (t.rename ξ).withPrimitives = t.withPrimitives.rename ξ := by
  induction t generalizing ξ with
  | free name =>
    rw [rename, withPrimitives]
    split <;> rfl
  | abs stem body ih => rw [rename, withPrimitives, ih, withPrimitives, rename]
  | app func arg ihf iha => rw [rename, withPrimitives, ihf, iha, withPrimitives, rename]
  | bound _ | const _ => rfl

theorem Congruence.withPrimitives : Congruence fun _ t t' => t' = t.withPrimitives where
  const _ _ := rfl
  app hf ha := by rw [hf, ha, Nameless.withPrimitives]
  abs _ h := by rw [h, Nameless.withPrimitives]
  bound _ := rfl
  shift h := by rw [h, Nameless.shift, Nameless.shift, withPrimitives_rename]

end Nameless

theorem Environment.compiling_eq (name : String) :
    Environment.compiling name = (Nameless.free name).withPrimitives := by
  rw [compiling, Term.ofName, List.contains_nil, if_neg Bool.false_ne_true, Nameless.withPrimitives]
  cases Primitive.ofName? name <;> rfl

namespace Core

/-- The lambda term is that of the expression, with primitives for free variables. -/
theorem nameless_toTerm (e : Core) : e.toTerm.nameless = e.nameless.withPrimitives :=
  ((lowers_toExpr e).read_toTermIn .free).trans
    (Expr.rel_read .withPrimitives 0 .free _ fun name _ => Environment.compiling_eq name)

theorem Alpha.toTerm {e e' : Core} (h : Alpha e e') : Term.Alpha e.toTerm e'.toTerm := by
  have hread (e : Core) : e.toTerm.nameless = e.toExpr.read Environment.compiling :=
    (lowers_toExpr e).read_toTermIn .free
  rw [Term.alpha_iff, Term.deBruijn, Term.deBruijn, hread, hread]
  exact h.bare_read (Agree.refl _)

/-- The lambda terms of core expressions that are equal up to the names of bound variables are so,
too. The lambda term has the primitives in the places of the free variables that have the names of
such, and every bound variable stays what it is. -/
theorem toTerm_alpha :
    (∀ e e' : Core, Alpha e e' → Term.Alpha e.toTerm e'.toTerm)
      ∧ ∀ e : Core, e.toTerm.nameless = e.nameless.withPrimitives :=
  ⟨fun _ _ h => h.toTerm, nameless_toTerm⟩

/-- Binders that are called like primitives, one of which is used outside of its binder as well. -/
theorem toTerm_alpha_primitiveNames :
    let e : Core := .app (.lam "plus" (.letIn "if" (.app (.var "plus") (.var "if"))
      (.tuple [.var "if", .var "plus"]))) (.var "plus")
    let e' : Core := .app (.lam "fix" (.letIn "tuple_2" (.app (.var "fix") (.var "tuple_2"))
      (.tuple [.var "tuple_2", .var "fix"]))) (.var "plus")
    Alpha e e' ∧ Term.Alpha e.toTerm e'.toTerm
      ∧ e.toTerm.nameless = e.nameless.withPrimitives := by
  intro e e'
  have h : Alpha e e' := by
    refine .app (.lam (.letIn ?value ?body)) (.var (.free "plus"))
    case value => exact .app (.var (.there (by decide) (by decide) (.here ..))) (.var (.here ..))
    case body =>
      exact .tuple (.cons (.var (.here ..))
        (.cons (.var (.there (by decide) (by decide) (.here ..))) (.nil _)))
  exact ⟨h, toTerm_alpha.1 e e' h, toTerm_alpha.2 e⟩

end Core

end Clausal
