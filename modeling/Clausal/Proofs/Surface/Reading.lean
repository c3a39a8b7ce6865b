import Clausal.Compilation
import Clausal.Proofs.Core.FromSurface
import Clausal.Proofs.Core.Lowering
import Clausal.Proofs.Nameless.Conversion
import Clausal.Proofs.Surface.Scopes

/-!
# Reading an expression

A surface expression without clauses and cases is read as a nameless term in an environment, as its
lambda term is. Blocks of one value are read for all irrefutable patterns: the value is a fixpoint
over what the pattern binds, and the names stand for projections of the fixpoint.

## Main results

* `Core.Lowers.read_toTermIn`: the lambda term of an expression is read as the expression;
* `Expr.subst_read`: substitution in what was read is one in the environment;
* `Expr.conv_read`: convertible environments give convertible readings.
-/

namespace Clausal

/-! ## Relations that go through all forms -/

namespace Nameless

/-- A relation between terms, at each depth, that goes through all forms of terms. -/
structure Congruence (R : Nat → Nameless → Nameless → Prop) : Prop where
  const (depth : Nat) (c : Constant) : R depth (const c) (const c)
  app {depth : Nat} {f f' a a' : Nameless} :
    R depth f f' → R depth a a' → R depth (app f a) (app f' a')
  abs {depth : Nat} {body body' : Nameless} (stem : String) :
    R (depth + 1) body body' → R depth (abs stem body) (abs stem body')
  bound (depth : Nat) : R (depth + 1) (bound 0) (bound 0)
  shift {depth : Nat} {t t' : Nameless} : R depth t t' → R (depth + 1) t.shift t'.shift

namespace Congruence

variable {R : Nat → Nameless → Nameless → Prop} {depth : Nat}

theorem applyAll (hR : Congruence R) {f f' : Nameless} {args args' : List Nameless}
    (hf : R depth f f') (hargs : List.Forall₂ (R depth) args args') :
    R depth (f.applyAll args) (f'.applyAll args') := by
  induction hargs generalizing f f' with
  | nil => exact hf
  | cons harg _ ih => exact ih (hR.app hf harg)

theorem fieldsTerm (hR : Congruence R) {fields fields' : List Nameless}
    (h : List.Forall₂ (R depth) fields fields') :
    R depth (fieldsTerm fields) (Nameless.fieldsTerm fields') := by
  cases h with
  | nil => exact hR.const depth _
  | cons hfirst hrest =>
    cases hrest with
    | nil => exact hfirst
    | cons hsecond hrest =>
      simp only [Nameless.fieldsTerm, List.length_cons, hrest.length_eq]
      exact hR.applyAll (hR.const depth _) (.cons hfirst (.cons hsecond hrest))

theorem eq : Congruence fun _ t t' => t = t' :=
  ⟨fun _ _ => rfl, fun hf ha => hf ▸ ha ▸ rfl, fun _ h => h ▸ rfl, fun _ => rfl, fun h => h ▸ rfl⟩

theorem conv : Congruence fun _ t t' => Conv t t' :=
  ⟨fun _ _ => .refl _, .app, .abs, fun _ => .refl _, .shift⟩

theorem closedAt : Congruence fun depth t _ => t.ClosedAt depth :=
  ⟨fun _ _ => trivial, .intro, fun _ h => h, Nat.succ_pos, closedAt_shift.2⟩

end Congruence

end Nameless

/-! ## Environments -/

/-- The parts of a value that has `count` of them. -/
def Nameless.parts (count : Nat) (value : Nameless) : List Nameless :=
  if count = 1 then [value]
  else (List.range count).map fun i => .app (.const (.primitive (.select count (i + 1)))) value

/-- The stem of the variable that a pattern is bound through. -/
def Pattern.stem : Pattern → String
  | .var name => Term.stem name
  | _ => "x"

namespace Environment

mutual

/-- The environment in which the names of an irrefutable pattern stand for the parts of a value. -/
def project (pattern : Pattern) (value : Nameless) (env : Environment) : Environment :=
  match pattern with
  | .var name => Function.update env name value
  | .tuple elements => projectAll elements (Nameless.parts elements.length value) env
  | .wildcard | .lit _ | .con _ _ => env

/-- The environment in which the names of patterns stand for parts of the values at the same place,
with the names of the first pattern added first. -/
def projectAll (patterns : List Pattern) (values : List Nameless) (env : Environment) :
    Environment :=
  match patterns, values with
  | pattern :: patterns, value :: values => projectAll patterns values (project pattern value env)
  | _, _ => env

end

/-- An environment, below a binder that no name stands for. -/
def shift (env : Environment) : Environment := fun name => (env name).shift

/-- The value of a recursive binding. -/
def fixpoint (env : Environment) (pattern : Pattern) (value : Environment → Nameless) : Nameless :=
  .app (.const (.primitive .fix)) (.abs pattern.stem (value (env.shift.project pattern (.bound 0))))

theorem length_parts (count : Nat) (value : Nameless) :
    (Nameless.parts count value).length = count := by
  unfold Nameless.parts
  split
  · next h => exact h.symm
  · rw [List.length_map, List.length_range]

theorem parts_subst (count : Nat) (value : Nameless) (σ : Nat → Nameless) :
    (Nameless.parts count value).map (Nameless.subst σ) = Nameless.parts count (value.subst σ) := by
  unfold Nameless.parts
  split
  · rfl
  · rw [List.map_map]
    rfl

section Project

variable {env env' : Environment} {name : String}

mutual

/-- A pattern leaves the names alone that it does not bind. -/
theorem project_of_not_mem (pattern : Pattern) (value : Nameless) (env : Environment)
    (h : name ∉ pattern.boundNames) : env.project pattern value name = env name := by
  cases pattern with
  | var other => exact Function.update_of_ne (fun heq => h (List.mem_singleton.2 heq)) _ _
  | tuple elements => exact projectAll_of_not_mem elements _ env h
  | wildcard | lit _ | con _ _ => rfl

theorem projectAll_of_not_mem (patterns : List Pattern) (values : List Nameless)
    (env : Environment) (h : name ∉ Pattern.boundNamesList patterns) :
    env.projectAll patterns values name = env name := by
  cases patterns with
  | nil => rfl
  | cons pattern patterns =>
    cases values with
    | nil => rfl
    | cons value values =>
      rw [Pattern.boundNamesList, List.mem_append, not_or] at h
      exact (projectAll_of_not_mem patterns values _ h.2).trans
        (project_of_not_mem pattern value env h.1)

end

section Related

variable {R : Nat → Nameless → Nameless → Prop}

theorem rel_parts {depth : Nat} (hR : Nameless.Congruence R) (count : Nat) {value value' : Nameless}
    (h : R depth value value') :
    List.Forall₂ (R depth) (Nameless.parts count value) (Nameless.parts count value') := by
  unfold Nameless.parts
  split
  · exact .cons h .nil
  · rw [List.forall₂_map_left_iff, List.forall₂_map_right_iff, List.forall₂_same]
    exact fun _ _ => hR.app (hR.const depth _) h

mutual

/-- What an irrefutable pattern binds to related values is related, and so is all that stays. -/
theorem rel_project (hR : Nameless.Congruence R) (depth : Nat) {pattern : Pattern}
    (hpattern : pattern.isIrrefutable = true) (value value' : Nameless) (env env' : Environment)
    (hvalue : R depth value value')
    (h : name ∉ pattern.boundNames → R depth (env name) (env' name)) :
    R depth (env.project pattern value name) (env'.project pattern value' name) := by
  cases pattern with
  | var other =>
    rw [project, project]
    by_cases heq : name = other
    · rwa [heq, Function.update_self, Function.update_self]
    · rw [Function.update_of_ne heq, Function.update_of_ne heq]
      exact h fun hmem => heq (List.mem_singleton.1 hmem)
  | wildcard =>
    rw [project, project]
    exact h List.not_mem_nil
  | tuple elements =>
    rw [project, project]
    exact rel_projectAll hR depth hpattern (length_parts _ _) (rel_parts hR _ hvalue) h
  | lit _ | con _ _ => contradiction

theorem rel_projectAll (hR : Nameless.Congruence R) (depth : Nat) {patterns : List Pattern}
    (hpatterns : Pattern.areIrrefutable patterns = true) {values values' : List Nameless}
    (hlength : values.length = patterns.length) (hvalues : List.Forall₂ (R depth) values values')
    {env env' : Environment}
    (h : name ∉ Pattern.boundNamesList patterns → R depth (env name) (env' name)) :
    R depth (env.projectAll patterns values name) (env'.projectAll patterns values' name) := by
  cases patterns with
  | nil => exact h List.not_mem_nil
  | cons pattern patterns =>
    cases hvalues with
    | nil => contradiction
    | cons hvalue hvalues =>
      rw [Pattern.areIrrefutable, Bool.and_eq_true] at hpatterns
      rw [projectAll, projectAll]
      refine rel_projectAll hR depth hpatterns.2 (Nat.succ.inj hlength) hvalues fun hrest => ?_
      refine rel_project hR depth hpatterns.1 _ _ _ _ hvalue fun hfirst => h fun hmem => ?_
      exact (List.mem_append.1 hmem).elim hfirst hrest

end

end Related

/-- Patterns bind convertible terms in convertible environments. -/
theorem conv_project {pattern : Pattern} (hpattern : pattern.isIrrefutable = true)
    {value value' : Nameless} (hvalue : Nameless.Conv value value') {env env' : Environment}
    (h : name ∉ pattern.boundNames → Nameless.Conv (env name) (env' name)) :
    Nameless.Conv (env.project pattern value name) (env'.project pattern value' name) :=
  rel_project .conv 0 hpattern _ _ env env' hvalue h

/-- Patterns bind closed terms in closed environments. -/
theorem closedAt_project {pattern : Pattern} (hpattern : pattern.isIrrefutable = true) {depth : Nat}
    {value : Nameless} (hvalue : value.ClosedAt depth) {env : Environment}
    (h : name ∉ pattern.boundNames → (env name).ClosedAt depth) :
    (env.project pattern value name).ClosedAt depth :=
  rel_project .closedAt depth hpattern value value env env hvalue h

mutual

/-- A substitution in an environment, behind a pattern. -/
theorem project_subst (pattern : Pattern) (value : Nameless) (env : Environment)
    (σ : Nat → Nameless) :
    (fun name => (env.project pattern value name).subst σ)
      = project pattern (value.subst σ) fun name => (env name).subst σ := by
  cases pattern with
  | var other =>
    funext name
    rw [project, project]
    by_cases heq : name = other
    · rw [heq, Function.update_self, Function.update_self]
    · rw [Function.update_of_ne heq, Function.update_of_ne heq]
  | tuple elements => rw [project, project, projectAll_subst, parts_subst]
  | wildcard | lit _ | con _ _ => rw [project, project]

theorem projectAll_subst (patterns : List Pattern) (values : List Nameless) (env : Environment)
    (σ : Nat → Nameless) :
    (fun name => (env.projectAll patterns values name).subst σ)
      = projectAll patterns (values.map (Nameless.subst σ)) fun name => (env name).subst σ := by
  cases patterns with
  | nil => rfl
  | cons pattern patterns =>
    cases values with
    | nil => rfl
    | cons value values =>
      rw [projectAll, projectAll_subst, List.map_cons, projectAll, project_subst]

end

/-- The environment below a binder binds its variable. -/
theorem project_var_shift (x : String) (env : Environment) :
    env.shift.project (.var x) (.bound 0) = env.bind x := rfl

/-- A substitution in an environment, below the binder of a recursive value. -/
theorem shift_project_subst (pattern : Pattern) (env : Environment) (σ : Nat → Nameless) :
    (fun name => (env.shift.project pattern (.bound 0) name).subst (Nameless.under σ))
      = Environment.project pattern (.bound 0) (shift fun name => (env name).subst σ) := by
  rw [project_subst]
  congr 1
  funext name
  rw [shift, shift, Nameless.shift_subst, Nameless.shift, Nameless.rename_subst]
  rfl

end Project

end Environment

namespace Expr

mutual

/-- The nameless term of an expression without clauses and cases, whose patterns are irrefutable. -/
def read (env : Environment) : Expr → Nameless
  | .var name => env name
  | .lit literal => .const (.literal literal)
  | .con name => .const (.constructor name)
  | .prim primitive => .const (.primitive primitive)
  | .app func args => (read env func).applyAll (readAll env args)
  | .tuple elements => Nameless.fieldsTerm (readAll env elements)
  | .lam [.var param] body => .abs (Term.stem param) (read (env.bind param) body)
  | .cond condition positive negative =>
    (Nameless.const (.primitive .branch)).applyAll
      [read env condition, read env positive, read env negative]
  | .letIn [] body => read env body
  | .letIn [.value pattern value] body =>
    if pattern.isIrrefutable then
      read (env.project pattern (env.fixpoint pattern fun env => read env value)) body
    else .const (.primitive .bot)
  | .lam _ _ | .letIn _ _ | .caseOf _ _ => .const (.primitive .bot)

/-- The nameless terms of a list of expressions. -/
def readAll (env : Environment) : List Expr → List Nameless
  | [] => []
  | e :: es => read env e :: readAll env es

end

variable {env env' : Environment} {name : String} {e : Expr}

/-! ## Forms of expressions -/

theorem readAll_eq_map (env : Environment) (es : List Expr) : readAll env es = es.map (read env) := by
  induction es with
  | nil => rfl
  | cons e es ih => exact congrArg (e.read env :: ·) ih

theorem read_app (env : Environment) (func : Expr) (args : List Expr) :
    (app func args).read env = (func.read env).applyAll (args.map (read env)) := by
  rw [← readAll_eq_map]
  rfl

theorem read_app1 (env : Environment) (func arg : Expr) :
    (app1 func arg).read env = .app (func.read env) (arg.read env) :=
  read_app env func [arg]

theorem read_tuple (env : Environment) (elements : List Expr) :
    (tuple elements).read env = Nameless.fieldsTerm (elements.map (read env)) := by
  rw [← readAll_eq_map]
  rfl

theorem read_lam1 (env : Environment) (param : String) (body : Expr) :
    (lam1 param body).read env = .abs (Term.stem param) (body.read (env.bind param)) := rfl

theorem read_cond (env : Environment) (condition positive negative : Expr) :
    (cond condition positive negative).read env
      = (Nameless.const (.primitive .branch)).applyAll
        ([condition, positive, negative].map (read env)) := rfl

theorem read_letIn_nil (env : Environment) (body : Expr) :
    (letIn [] body).read env = body.read env := rfl

/-- A block of one value binds the names of its pattern to the parts of a fixpoint. -/
theorem read_letIn {pattern : Pattern} (h : pattern.isIrrefutable = true) (env : Environment)
    (value body : Expr) :
    (letIn [.value pattern value] body).read env
      = body.read (env.project pattern (env.fixpoint pattern fun env => value.read env)) :=
  if_pos h

/-- A function has a reading of its own if it is of one variable. -/
theorem read_lam_cases (params : List Pattern) (body : Expr) :
    (∃ param, params = [.var param])
      ∨ ∀ env, (lam params body).read env = .const (.primitive .bot) := by
  by_cases h : ∃ param, params = [.var param]
  · exact .inl h
  · refine .inr fun env => ?_
    rw [read]
    exact fun param heq => h ⟨param, heq⟩

/-- A block has a reading of its own if it is empty or of one value with an irrefutable pattern. -/
theorem read_letIn_cases (decls : List (Decl Expr)) (body : Expr) :
    decls = [] ∨ (∃ pattern value, decls = [.value pattern value] ∧ pattern.isIrrefutable = true)
      ∨ ∀ env, (letIn decls body).read env = .const (.primitive .bot) := by
  by_cases hnil : decls = []
  · exact .inl hnil
  by_cases h : ∃ pattern value, decls = [.value pattern value]
  · obtain ⟨pattern, value, rfl⟩ := h
    by_cases hpattern : pattern.isIrrefutable = true
    · exact .inr (.inl ⟨pattern, value, rfl, hpattern⟩)
    · exact .inr (.inr fun env => by rw [read, if_neg hpattern])
  · refine .inr (.inr fun env => ?_)
    rw [read]
    · exact hnil
    · exact fun pattern value heq => h ⟨pattern, value, heq⟩

/-! ## Change of the environment -/

theorem fieldsTerm_subst (fields : List Nameless) (σ : Nat → Nameless) :
    (Nameless.fieldsTerm fields).subst σ = Nameless.fieldsTerm (fields.map (Nameless.subst σ)) := by
  match fields with
  | [_] => rfl
  | [] => rfl
  | first :: second :: rest =>
    simp only [Nameless.fieldsTerm, Nameless.subst_applyAll, List.map_cons, List.length_cons,
      List.length_map]
    rfl

/-- Substitution in what was read is one in the environment. -/
theorem subst_read (e : Expr) (env : Environment) (σ : Nat → Nameless) :
    (e.read env).subst σ = e.read fun name => (env name).subst σ := by
  induction e using induction_children generalizing env σ with
  | step e ih =>
    -- for subexpressions in the scope of the expression itself
    have hall (es : List Expr) (hes : ∀ c ∈ es, c ∈ e.children) :
        (es.map (read env)).map (Nameless.subst σ)
          = es.map (read fun name => (env name).subst σ) := by
      rw [List.map_map]
      exact List.map_congr_left fun c hc => ih c (hes c hc) env σ
    cases e with
    | var _ | lit _ | con _ | prim _ => rfl
    | app func args =>
      rw [read_app, Nameless.subst_applyAll, read_app, ih func List.mem_cons_self,
        hall args fun c hc => List.mem_cons_of_mem func hc]
    | tuple elements => rw [read_tuple, fieldsTerm_subst, read_tuple, hall elements fun c hc => hc]
    | lam params body =>
      rcases read_lam_cases params body with ⟨param, rfl⟩ | hbot
      · show Nameless.abs _ ((body.read (env.bind param)).subst (Nameless.under σ)) = _
        rw [ih body List.mem_cons_self, Environment.bind_subst]
        rfl
      · rw [hbot, hbot]
        rfl
    | cond condition positive negative =>
      rw [read_cond, read_cond, Nameless.subst_applyAll,
        hall [condition, positive, negative] fun c hc => hc]
      rfl
    | letIn decls body =>
      have hbody : body ∈ (letIn decls body).children :=
        List.mem_append_right _ List.mem_cons_self
      rcases read_letIn_cases decls body with rfl | ⟨pattern, value, rfl, hpattern⟩ | hbot
      · rw [read_letIn_nil, read_letIn_nil, ih body hbody]
      -- the value is read below the binder of the fixpoint, so in any environment
      · have hvalue (env : Environment) (σ : Nat → Nameless) :=
          ih value List.mem_cons_self env σ
        rw [read_letIn hpattern, read_letIn hpattern, ih body hbody, Environment.project_subst,
          Environment.fixpoint, Nameless.subst, Nameless.subst, Nameless.subst, hvalue,
          Environment.shift_project_subst, Environment.fixpoint]
      · rw [hbot, hbot]
        rfl
    | caseOf _ _ => rfl

/-- Filling a body that was read below a binder puts the argument into the environment. -/
theorem instantiate_read (body : Expr) (env : Environment) (x : String) (arg : Nameless) :
    (body.read (env.bind x)).instantiate arg = body.read (Function.update env x arg) := by
  rw [← Environment.bind_instantiate]
  exact subst_read body _ _

/-- A function applied to an argument. -/
theorem conv_lam1 (param : String) (body : Expr) (env : Environment) (arg : Nameless) :
    Nameless.Conv (.app ((lam1 param body).read env) arg)
      (body.read (Function.update env param arg)) := by
  rw [read_lam1, ← instantiate_read]
  exact Nameless.conv_beta _ _ _

/-- Environments that are related on the free variables give related readings. -/
theorem rel_read {R : Nat → Nameless → Nameless → Prop} (hR : Nameless.Congruence R) (depth : Nat)
    (env env' : Environment) (h : ∀ name ∈ e.free, R depth (env name) (env' name)) :
    R depth (e.read env) (e.read env') := by
  induction e using induction_children generalizing env env' depth with
  | step e ih =>
    -- for subexpressions in the scope of the expression itself
    have hall (es : List Expr) (hes : ∀ c ∈ es, c ∈ e.children ∧ c.free ⊆ e.free) :
        List.Forall₂ (R depth) (es.map (read env)) (es.map (read env')) := by
      rw [List.forall₂_map_left_iff, List.forall₂_map_right_iff, List.forall₂_same]
      exact fun c hc => ih c (hes c hc).1 _ _ _ fun name hname => h name ((hes c hc).2 hname)
    cases e with
    | var name => exact h name (List.mem_singleton_self name)
    | lit _ | con _ | prim _ => exact hR.const depth _
    | app func args =>
      rw [read_app, read_app]
      refine hR.applyAll (ih func List.mem_cons_self _ _ _ fun name hname => h name ?_)
        (hall args fun c hc => ?_)
      · exact mem_free_app.2 (.inl hname)
      · exact ⟨List.mem_cons_of_mem _ hc, fun name hname => mem_free_app.2 (.inr ⟨c, hc, hname⟩)⟩
    | tuple elements =>
      rw [read_tuple, read_tuple]
      exact hR.fieldsTerm (hall elements fun c hc =>
        ⟨hc, fun name hname => mem_free_tuple.2 ⟨c, hc, hname⟩⟩)
    | lam params body =>
      rcases read_lam_cases params body with ⟨param, rfl⟩ | hbot
      · refine hR.abs _ (ih body List.mem_cons_self _ _ _ fun name hname => ?_)
        -- a binder puts the next bound variable in for the parameter, one level deeper
        rw [← Environment.project_var_shift, ← Environment.project_var_shift]
        refine Environment.rel_project hR (depth + 1) rfl _ _ _ _ (hR.bound depth) fun hparam => ?_
        refine hR.shift (h name (mem_free_lam1.2 ⟨hname, fun heq => hparam ?_⟩))
        exact List.mem_singleton.2 heq
      · rw [hbot, hbot]
        exact hR.const depth _
    | cond condition positive negative =>
      rw [read_cond, read_cond]
      have hchildren : ∀ c ∈ [condition, positive, negative],
          c.free ⊆ (cond condition positive negative).free := by
        simp only [List.forall_mem_cons]
        exact ⟨fun name hname => mem_free_cond.2 (.inl hname),
          fun name hname => mem_free_cond.2 (.inr (.inl hname)),
          fun name hname => mem_free_cond.2 (.inr (.inr hname)), nofun⟩
      exact hR.applyAll (hR.const depth _) (hall [condition, positive, negative]
        fun c hc => ⟨hc, hchildren c hc⟩)
    | letIn decls body =>
      have hbody : body ∈ (letIn decls body).children :=
        List.mem_append_right _ List.mem_cons_self
      rcases read_letIn_cases decls body with rfl | ⟨pattern, value, rfl, hpattern⟩ | hbot
      · rw [read_letIn_nil, read_letIn_nil]
        exact ih body hbody _ _ _ fun name hname => h name (mem_free_letIn.2 ⟨.inr hname, nofun⟩)
      · rw [read_letIn hpattern, read_letIn hpattern]
        -- the names of the pattern stand for parts of the fixpoint, in the value and the body
        have hfixpoint : R depth (env.fixpoint pattern fun env => value.read env)
            (env'.fixpoint pattern fun env => value.read env) := by
          refine hR.app (hR.const depth _) (hR.abs _ ?_)
          refine ih value List.mem_cons_self _ _ _ fun name hname => ?_
          refine Environment.rel_project hR (depth + 1) hpattern _ _ _ _ (hR.bound depth) fun hbound => ?_
          exact hR.shift (h name (mem_free_letIn_value.2 ⟨.inl hname, hbound⟩))
        refine ih body hbody _ _ _ fun name hname => ?_
        refine Environment.rel_project hR depth hpattern _ _ _ _ hfixpoint fun hbound => ?_
        exact h name (mem_free_letIn_value.2 ⟨.inr hname, hbound⟩)
      · rw [hbot, hbot]
        exact hR.const depth _
    | caseOf _ _ => exact hR.const depth _

/-- Only the free variables of an expression are looked up. -/
theorem read_congr (h : ∀ name ∈ e.free, env name = env' name) : e.read env = e.read env' :=
  rel_read .eq 0 env env' h

theorem read_update_of_not_mem {name : String} (h : name ∉ e.free) (u : Nameless) :
    e.read (Function.update env name u) = e.read env :=
  read_congr fun _ hname => Function.update_of_ne (ne_of_mem_of_not_mem hname h) _ _

/-- Environments that are convertible on the free variables give convertible readings. -/
theorem conv_read (h : ∀ name ∈ e.free, Nameless.Conv (env name) (env' name)) :
    Nameless.Conv (e.read env) (e.read env') :=
  rel_read .conv 0 env env' h

/-- What is read from closed terms is closed. -/
theorem closedAt_read {depth : Nat} (h : ∀ name ∈ e.free, (env name).ClosedAt depth) :
    (e.read env).ClosedAt depth :=
  rel_read .closedAt depth env env h

end Expr

/-! ## The lambda term -/

namespace Core

variable {e : Expr} {core : Core} {scope : List String}

/-- The term of a name, below a binder. -/
theorem read_ofName_cons (scope : List String) (param : String) (env : Environment)
    (u : Nameless) :
    (fun name => (Term.ofName (param :: scope) name).read (Function.update env param u))
      = Function.update (fun name => (Term.ofName scope name).read env) param u := by
  funext name
  by_cases h : name = param
  · have hscope : (param :: scope).contains param = true :=
      List.contains_iff_mem.2 List.mem_cons_self
    rw [h, Function.update_self, Term.ofName, if_pos hscope, Term.read, Function.update_self]
  · have hscope : (param :: scope).contains name = scope.contains name := by
      rw [List.contains_cons, beq_eq_false_iff_ne.2 h, Bool.false_or]
    rw [Function.update_of_ne h, Term.ofName, hscope, ← Term.ofName.eq_def,
      Term.read_update_of_not_mem]
    intro hmem
    exact h (mem_free_ofName hmem).1.symm

theorem bind_ofName (scope : List String) (param : String) (env : Environment) :
    (fun name => (Term.ofName (param :: scope) name).read (env.bind param))
      = Environment.bind param fun name => (Term.ofName scope name).read env := by
  rw [Environment.bind, read_ofName_cons]
  simp only [Environment.bind, Term.shift_read]

/-- The lambda term of an expression is read as the expression, in the environment of the names in
scope and of the primitives. -/
theorem Lowers.read_toTermIn (h : Lowers e core) (env : Environment) :
    (core.toTermIn scope).read env = e.read fun name => (Term.ofName scope name).read env := by
  induction e using Expr.induction_children generalizing core scope env with
  | step e ih =>
    -- for subexpressions in the scope of the expression itself
    have hall (es : List Expr) (hes : ∀ c ∈ es, c ∈ e.children) {cores : List Core}
        (h : List.Forall₂ Lowers es cores) :
        (cores.map (toTermIn scope)).map (Term.read env)
          = es.map (Expr.read fun name => (Term.ofName scope name).read env) := by
      induction h with
      | nil => rfl
      | cons hfirst _ ihrest =>
        obtain ⟨hmem, hes⟩ := List.forall_mem_cons.1 hes
        rw [List.map_cons, List.map_cons, List.map_cons, ihrest hes, ih _ hmem hfirst]
    cases h with
    | var _ | lit _ | con _ | prim _ => rfl
    | @app func args _ args' hfunc hargs =>
      rw [toTermIn_foldl_app, Term.read_applyAll, Expr.read_app, ih func List.mem_cons_self hfunc,
        hall args (fun c hc => List.mem_cons_of_mem _ hc) hargs]
    | @tuple elements elements' helements =>
      rw [Expr.read_tuple, ← hall elements (fun c hc => hc) helements, toTermIn_tuple]
      split
      · rfl
      · next hne =>
        rw [Term.read_applyAll, Nameless.fieldsTerm.eq_def]
        split
        · next heq =>
          obtain ⟨element, rfl⟩ := List.length_eq_one_iff.1 (by simpa using congrArg List.length heq)
          exact absurd rfl (hne element)
        · rw [List.length_map, List.length_map]
          rfl
    | @lam param body body' hbody =>
      show Nameless.abs _ ((body'.toTermIn (param :: scope)).read (env.bind param)) = _
      rw [ih body List.mem_cons_self hbody, bind_ofName]
      rfl
    | @cond condition positive negative _ _ _ hcondition hpositive hnegative =>
      have h := hall [condition, positive, negative] (fun c hc => hc)
        (.cons hcondition (.cons hpositive (.cons hnegative .nil)))
      rw [toTermIn, Term.read_applyAll, Expr.read_cond]
      exact congrArg (Nameless.applyAll _) h
    | @block body _ hbody => rw [Expr.read_letIn_nil, ih body List.mem_cons_self hbody]
    | @letIn param value body value' body' hvalue hbody =>
      -- the recursive value, which the term puts in for the name, is read as the fixpoint
      have hfixpoint : (Term.recursive param (toTermIn (param :: scope) value')).read env
          = Environment.fixpoint (fun name => (Term.ofName scope name).read env) (.var param)
            fun env => value.read env := by
        rw [Term.recursive, Term.read, Term.read, ih value List.mem_cons_self hvalue, bind_ofName,
          Environment.fixpoint, Environment.project_var_shift]
        rfl
      rw [toTermIn, Term.read_subst, Expr.read_letIn rfl, Environment.project, ← hfixpoint,
        ih body (List.mem_cons_of_mem _ List.mem_cons_self) hbody, read_ofName_cons]

end Core

/-- The environment of the primitives, in which no other name means anything. -/
def Environment.primitives : Environment := fun name =>
  (Term.ofName [] name).read fun _ => .const (.primitive .bot)

theorem Environment.closed_primitives (name : String) : (primitives name).Closed := by
  rw [primitives, Term.ofName]
  split
  · trivial
  · split <;> trivial

/-- The environment in which expressions are compiled: the name of a primitive stands for the
primitive, and every other name for itself. -/
def Environment.compiling : Environment := fun name => (Term.ofName [] name).nameless

/-- A core expression has a lambda term. In every environment it is read as the expression, where
the name of a primitive stands for the primitive. -/
theorem Expr.exists_compiled_readIn {e : Expr} (hcore : Grammar.core.Generates e) :
    ∃ compiled, e.compiled = .ok compiled
      ∧ ∀ env, compiled.term.read env = e.read fun name => (Term.ofName [] name).read env := by
  obtain ⟨core, hofExpr⟩ := Core.exists_ofExpr_eq_ok_iff.2 hcore
  refine ⟨⟨core, core.toTerm⟩, by rw [compiled, hofExpr]; rfl, fun env => ?_⟩
  exact (Core.lowers_of_ofExpr hofExpr).read_toTermIn env

/-- The same in the environment in which expressions are compiled. -/
theorem Expr.exists_compiled_read {e : Expr} (hcore : Grammar.core.Generates e) :
    ∃ compiled, e.compiled = .ok compiled
      ∧ compiled.term.nameless = e.read Environment.compiling := by
  obtain ⟨compiled, hcompiled, hread⟩ := exists_compiled_readIn hcore
  exact ⟨compiled, hcompiled, hread .free⟩

/-- A core expression that uses nothing but primitives has a closed lambda term, which is read as
the expression. -/
theorem Expr.exists_compiled {e : Expr} (hcore : Grammar.core.Generates e)
    (hfree : ∀ name ∈ e.free, (Primitive.ofName? name).isSome = true) :
    ∃ compiled, e.compiled = .ok compiled ∧ compiled.term.isClosed = true
      ∧ compiled.term.nameless = e.read Environment.primitives := by
  obtain ⟨core, hofExpr⟩ := Core.exists_ofExpr_eq_ok_iff.2 hcore
  have hlowers := Core.lowers_of_ofExpr hofExpr
  have hclosed : core.toTerm.isClosed = true := by
    refine Term.isClosed_iff.2 fun name hname => ?_
    obtain ⟨hmem, hscope⟩ := hlowers.mem_free_toTermIn hname
    have hsome := hfree name hmem
    rw [hscope.resolve_left List.not_mem_nil] at hsome
    contradiction
  refine ⟨⟨core, core.toTerm⟩, by rw [compiled, hofExpr]; rfl, hclosed, ?_⟩
  rw [← Term.read_eq_nameless hclosed, Core.toTerm]
  exact hlowers.read_toTermIn _

end Clausal
