import Clausal.Proofs.Letrec
import Clausal.Proofs.Nameless.Alpha

/-!
# The order of declarations

A block of values is bound one group after the other, and the order of the groups comes from how
the declarations are numbered, which is how they are written down. Where no two declarations use
each other, every group is a single declaration, and no order makes a difference: each environment
that such a nest makes solves the equations of its bindings, and there is one solution only.

The equations are between terms, not up to conversion. A name stands for the fixpoint of its value,
and the fixpoint is the same term in all environments that agree on the other variables of the value.

## Main results

* `Environment.solves_defineAll`: the environment of a nest solves the equations of its bindings;
* `Environment.defineAll_eq_of_solves`: the solution is unique, and made by every nest;
* `Sequential.exists_nest`: declarations that do not use each other are bound one after the other;
* `Sequential.compiled_perm`: they can be written down in any order.
-/

namespace Clausal

open Clausal.Expr

open Relation (ReflTransGen)

/-! ## The equations of bindings -/

/-- Whether no value uses a name that a later binding binds. -/
def Ordered (bindings : List (Pattern × Expr)) : Prop :=
  bindings.Pairwise fun user binder => ∀ name ∈ user.2.free, name ∉ binder.1.boundNames

instance (bindings : List (Pattern × Expr)) : Decidable (Ordered bindings) :=
  inferInstanceAs (Decidable (List.Pairwise _ _))

namespace Environment

variable {env env' ρ : Environment} {binding : Pattern × Expr} {bindings : List (Pattern × Expr)}

/-- A fixpoint depends on the variables of its value that are not bound by its pattern. -/
theorem fixpoint_congr (hpattern : binding.1.isIrrefutable = true)
    (h : ∀ name ∈ binding.2.free, name ∉ binding.1.boundNames → env name = env' name) :
    env.fixpoint binding.1 (fun env => binding.2.read env)
      = env'.fixpoint binding.1 fun env => binding.2.read env := by
  have hread : binding.2.read (env.shift.project binding.1 (.bound 0))
      = binding.2.read (env'.shift.project binding.1 (.bound 0)) := by
    refine read_congr fun name hname => ?_
    exact rel_project .eq 0 hpattern _ _ _ _ rfl fun hbound => congrArg _ (h name hname hbound)
  rw [fixpoint, fixpoint, hread]

/-- What a binding makes of its names depends on the other variables of its value. -/
theorem define_congr (hpattern : binding.1.isIrrefutable = true)
    (h : ∀ name ∈ binding.2.free, name ∉ binding.1.boundNames → env name = env' name)
    {name : String} (hname : name ∉ binding.1.boundNames → env name = env' name) :
    env.define binding name = env'.define binding name :=
  rel_project .eq 0 hpattern _ _ _ _ (fixpoint_congr hpattern h) hname

/-- Whether every binding defines its names as they are. -/
def Solves (ρ : Environment) (bindings : List (Pattern × Expr)) : Prop :=
  ∀ binding ∈ bindings, ρ.define binding = ρ

/-- The environment of a nest solves the equations of its bindings. -/
theorem solves_defineAll (hpatterns : ∀ binding ∈ bindings, binding.1.isIrrefutable = true)
    (hnodup : (definedNames bindings).Nodup) (hordered : Ordered bindings) (env : Environment) :
    (env.defineAll bindings).Solves bindings := by
  induction bindings generalizing env with
  | nil => exact List.forall_mem_nil _
  | cons binding bindings ih =>
    obtain ⟨hpattern, hpatterns⟩ := List.forall_mem_cons.1 hpatterns
    obtain ⟨hfirst, hordered⟩ := List.pairwise_cons.1 hordered
    rw [definedNames, List.flatMap_cons, List.nodup_append] at hnodup
    obtain ⟨-, hnodup, hdisjoint⟩ := hnodup
    refine List.forall_mem_cons.2 ⟨?_, ih hpatterns hnodup hordered (env.define binding)⟩
    -- the later bindings change neither the names of the first nor the variables of its value
    rw [defineAll, List.foldl_cons, ← defineAll]
    generalize hρ : (env.define binding).defineAll bindings = ρ
    have hkept {name : String} (h : ∀ later ∈ bindings, name ∉ later.1.boundNames) :
        ρ name = env.define binding name := hρ ▸ defineAll_of_not_mem h _
    funext name
    by_cases hname : name ∈ binding.1.boundNames
    · rw [hkept fun later hlater hmem =>
        hdisjoint name hname name (List.mem_flatMap.2 ⟨later, hlater, hmem⟩) rfl]
      refine define_congr hpattern (fun other hother hbound => ?_) (absurd hname)
      rw [hkept fun later hlater => hfirst later hlater other hother]
      exact project_of_not_mem _ _ _ hbound
    · exact project_of_not_mem _ _ _ hname

/-- A solution of the equations is made by every nest of the bindings. -/
theorem defineAll_eq_of_solves (hpatterns : ∀ binding ∈ bindings, binding.1.isIrrefutable = true)
    (hordered : Ordered bindings) (hsolves : ρ.Solves bindings)
    (houtside : ∀ name ∉ definedNames bindings, env name = ρ name) :
    env.defineAll bindings = ρ := by
  induction bindings generalizing env with
  | nil => exact funext fun name => houtside name List.not_mem_nil
  | cons binding bindings ih =>
    obtain ⟨hpattern, hpatterns⟩ := List.forall_mem_cons.1 hpatterns
    obtain ⟨hfirst, hordered⟩ := List.pairwise_cons.1 hordered
    obtain ⟨hequation, hsolves⟩ := List.forall_mem_cons.1 hsolves
    have hagree {name : String} (hname : name ∉ binding.1.boundNames)
        (hlater : name ∉ definedNames bindings) : env name = ρ name := by
      refine houtside name fun hmem => ?_
      rw [definedNames, List.flatMap_cons, List.mem_append] at hmem
      exact hmem.elim hname hlater
    -- the variables of the first value are outside, so its names get what the solution says
    refine ih hpatterns hordered hsolves fun name hname => ?_
    rw [← hequation]
    refine define_congr hpattern (fun other hother hbound => hagree hbound fun hmem => ?_)
      fun hbound => hagree hbound hname
    obtain ⟨later, hlater, hmem⟩ := List.mem_flatMap.1 hmem
    exact hfirst later hlater other hother hmem

/-- Two nests of the same bindings make one environment. -/
theorem defineAll_perm {bindings' : List (Pattern × Expr)} (hperm : bindings'.Perm bindings)
    (hpatterns : ∀ binding ∈ bindings, binding.1.isIrrefutable = true)
    (hnodup : (definedNames bindings).Nodup) (hordered : Ordered bindings)
    (hordered' : Ordered bindings') (env : Environment) :
    env.defineAll bindings' = env.defineAll bindings := by
  refine defineAll_eq_of_solves (fun binding hbinding => ?_) hordered' (fun binding hbinding => ?_)
    fun name hname => ?_
  · exact hpatterns binding (hperm.subset hbinding)
  · exact solves_defineAll hpatterns hnodup hordered env binding (hperm.subset hbinding)
  · refine (defineAll_of_not_mem (fun binding hbinding hmem => hname ?_) env).symm
    exact List.mem_flatMap.2 ⟨binding, hperm.symm.subset hbinding, hmem⟩

end Environment

/-! ## Declarations that do not use each other -/

/-- Declarations of variables that can be bound one after the other: each name is declared once, no
two declarations use each other, directly or through others, and the values have core
expressions. A declaration may use itself. -/
structure Sequential (bindings : List (Pattern × Expr)) : Prop where
  exists_var : ∀ binding ∈ bindings, ∃ name, binding.1 = .var name
  nodup : (definedNames bindings).Nodup
  eq_of_mutual : ∀ binding binding', ReflTransGen (Uses bindings) binding binding' →
    ReflTransGen (Uses bindings) binding' binding → binding = binding'
  exists_core : ∀ binding ∈ bindings, ∃ core, Core.ofExpr binding.2 = .ok core

/-- Groups of one member each are bound by their members. -/
theorem map_groupBinding {groups : List (List (Pattern × Expr))}
    (h : ∀ group ∈ groups, ∃ binding, group = [binding]) :
    groups.map groupBinding = groups.flatten := by
  induction groups with
  | nil => rfl
  | cons group groups ih =>
    obtain ⟨⟨binding, rfl⟩, hgroups⟩ := List.forall_mem_cons.1 h
    rw [List.map_cons, ih hgroups, List.flatten_cons, groupBinding, List.singleton_append]

namespace Sequential

variable {bindings bindings' : List (Pattern × Expr)} {body : Expr}

theorem isIrrefutable (h : Sequential bindings) :
    ∀ binding ∈ bindings, binding.1.isIrrefutable = true := by
  intro binding hbinding
  obtain ⟨name, hname⟩ := h.exists_var binding hbinding
  rw [hname]
  rfl

theorem generates (h : Sequential bindings) :
    ∀ binding ∈ bindings, Grammar.core.Generates binding.2 := fun binding hbinding =>
  Core.exists_ofExpr_eq_ok_iff.1 (h.exists_core binding hbinding)

theorem perm (h : Sequential bindings) (hperm : bindings'.Perm bindings) :
    Sequential bindings' := by
  have huses : Uses bindings' = Uses bindings := by
    funext user binder
    rw [Uses, Uses, hperm.mem_iff, hperm.mem_iff]
  exact ⟨fun binding hbinding => h.exists_var binding (hperm.subset hbinding),
    (hperm.flatMap_right _).nodup_iff.2 h.nodup, huses ▸ h.eq_of_mutual,
    fun binding hbinding => h.exists_core binding (hperm.subset hbinding)⟩

/-- Declarations none of which uses a later one can be bound one after the other. -/
theorem of_ordered (hvars : ∀ binding ∈ bindings, ∃ name, binding.1 = .var name)
    (hnodup : (definedNames bindings).Nodup) (hordered : Ordered bindings)
    (hcore : ∀ binding ∈ bindings, ∃ core, Core.ofExpr binding.2 = .ok core) :
    Sequential bindings := by
  classical
  have huses {user binder : Pattern × Expr} (h : Uses bindings user binder) :
      bindings.idxOf binder ≤ bindings.idxOf user := by
    obtain ⟨huser, hbinder, name, hbound, hfree⟩ := h
    by_contra hlt
    have hlater := List.pairwise_iff_getElem.1 hordered _ _ (List.idxOf_lt_length_of_mem huser)
      (List.idxOf_lt_length_of_mem hbinder) (Nat.lt_of_not_le hlt)
    rw [List.getElem_idxOf, List.getElem_idxOf] at hlater
    exact hlater name hfree hbound
  have hreaches {user binder : Pattern × Expr} (h : ReflTransGen (Uses bindings) user binder) :
      bindings.idxOf binder ≤ bindings.idxOf user := by
    induction h with
    | refl => exact Nat.le_refl _
    | tail _ hstep ih => exact (huses hstep).trans ih
  refine ⟨hvars, hnodup, fun binding binding' h h' => ?_, hcore⟩
  rcases h.cases_head with heq | ⟨next, ⟨hbinding, -⟩, -⟩
  · exact heq
  · exact (List.idxOf_inj hbinding).1 ((hreaches h').antisymm (hreaches h))

/-- No declaration is there twice. -/
theorem nodup_bindings (h : Sequential bindings) : bindings.Nodup := by
  obtain ⟨-, hdisjoint⟩ := List.nodup_flatMap.1 h.nodup
  refine hdisjoint.imp_of_mem fun {binding binding'} hbinding _ hnames heq => ?_
  obtain ⟨name, hname⟩ := h.exists_var binding hbinding
  have hbound : name ∈ binding.1.boundNames := by
    rw [hname]
    exact List.mem_singleton_self name
  exact hnames hbound (heq ▸ hbound)

/-- The groups of declarations that do not use each other have one member each. -/
theorem exists_eq_singleton (h : Sequential bindings) {groups : List (List (Pattern × Expr))}
    (hgroups : Grouping bindings groups)
    (huses : ∀ group ∈ groups, ∀ user ∈ group, ∀ binder ∈ group,
      ReflTransGen (Uses bindings) user binder) :
    ∀ group ∈ groups, ∃ binding, group = [binding] := by
  intro group hgroup
  have hnodup : group.Nodup :=
    (List.nodup_flatten.1 (hgroups.perm.nodup_iff.2 h.nodup_bindings)).1 group hgroup
  match group with
  | [] => exact absurd rfl (hgroups.nonempty [] hgroup)
  | [binding] => exact ⟨binding, rfl⟩
  | first :: second :: rest =>
    have hfirst : first ∈ first :: second :: rest := List.mem_cons_self
    have hsecond : second ∈ first :: second :: rest :=
      List.mem_cons_of_mem _ List.mem_cons_self
    have heq : first = second := h.eq_of_mutual first second
      (huses _ hgroup first hfirst second hsecond) (huses _ hgroup second hsecond first hfirst)
    exact absurd (heq ▸ List.mem_cons_self) (List.nodup_cons.1 hnodup).1

/-- Group nesting puts the declarations into an order, and binds one after the other. -/
theorem exists_nest (h : Sequential bindings) (hne : bindings ≠ []) :
    ∃ order : List (Pattern × Expr), order.Perm bindings ∧ Ordered order
      ∧ ∀ options supply body, Grammar.core.Generates body →
        (toFixpoint options Pass.groupNesting.rules supply
          (letIn (valueDecls bindings) body)).result = .ok (nest order body, supply) := by
  obtain ⟨groups, hgroups, huses, hnest⟩ :=
    toFixpoint_groupNesting hne h.isIrrefutable h.generates
  have hsingle := h.exists_eq_singleton hgroups huses
  rw [map_groupBinding hsingle] at hnest
  refine ⟨groups.flatten, hgroups.perm, List.pairwise_flatten.2 ⟨?_, hgroups.ordered⟩, hnest⟩
  intro group hgroup
  obtain ⟨binding, rfl⟩ := hsingle group hgroup
  exact List.pairwise_singleton _ _

/-- A nest of such declarations is a core expression. -/
theorem generates_nest (h : Sequential bindings) (hbody : Grammar.core.Generates body) :
    Grammar.core.Generates (nest bindings body) := by
  have hvalues := h.generates
  have hvars := h.exists_var
  clear h
  induction bindings with
  | nil => exact hbody
  | cons binding bindings ih =>
    obtain ⟨⟨name, hname⟩, hvars⟩ := List.forall_mem_cons.1 hvars
    obtain ⟨hvalue, hvalues⟩ := List.forall_mem_cons.1 hvalues
    rw [nest_cons, hname]
    refine Grammar.generates_letIn.2
      ⟨Core.block_core_iff.2 (.inr ⟨name, binding.2, rfl⟩), ?_, ih hvalues hvars⟩
    rw [Decl.bodies_value, Decl.bodies_nil, List.forall_mem_singleton]
    exact hvalue

/-- The block compiles to a term that is read as its body, in the environment of some order. -/
theorem exists_compiled (h : Sequential bindings) (hbody : Grammar.core.Generates body)
    (options : SimplifyOptions) (supply : FreshSupply) :
    ∃ e compiled, ∃ order : List (Pattern × Expr),
      (toFixpoint options Pass.groupNesting.rules supply (letIn (valueDecls bindings) body)).result
          = .ok (e, supply)
        ∧ e.compiled = .ok compiled ∧ order.Perm bindings ∧ Ordered order
        ∧ compiled.term.nameless = body.read (Environment.compiling.defineAll order) := by
  by_cases hne : bindings = []
  -- an empty block stays as it is
  · subst hne
    have hblock : Grammar.core.Generates (letIn (valueDecls []) body) :=
      Grammar.generates_letIn.2 ⟨Core.block_core_iff.2 (.inl rfl), List.forall_mem_nil _, hbody⟩
    obtain ⟨compiled, hcompiled, hread⟩ := exists_compiled_read hblock
    have hresult : (toFixpoint options Pass.groupNesting.rules supply
        (letIn (valueDecls []) body)).result = .ok (letIn (valueDecls []) body, supply) :=
      toFixpoint_of_core _ supply hblock
    exact ⟨_, compiled, [], hresult, hcompiled, .nil, .nil, hread⟩
  · obtain ⟨order, hperm, hordered, hnest⟩ := h.exists_nest hne
    have horder := h.perm hperm
    obtain ⟨compiled, hcompiled, hread⟩ := exists_compiled_read (horder.generates_nest hbody)
    rw [read_nest horder.isIrrefutable] at hread
    exact ⟨_, compiled, order, hnest options supply body hbody, hcompiled, hperm, hordered, hread⟩

/-- Declarations that do not use each other can be written down in any order: group nesting makes
core expressions of both blocks, the lambda terms of which are equal up to the names of bound
variables. -/
theorem compiled_perm (h : Sequential bindings) (hperm : bindings'.Perm bindings)
    (hbody : ∃ core, Core.ofExpr body = .ok core) (options : SimplifyOptions)
    (supply : FreshSupply) :
    ∃ e e' compiled compiled',
      (toFixpoint options Pass.groupNesting.rules supply (letIn (valueDecls bindings) body)).result
          = .ok (e, supply)
        ∧ (toFixpoint options Pass.groupNesting.rules supply
          (letIn (valueDecls bindings') body)).result = .ok (e', supply)
        ∧ e.compiled = .ok compiled ∧ e'.compiled = .ok compiled'
        ∧ Term.Alpha compiled.term compiled'.term := by
  rw [Core.exists_ofExpr_eq_ok_iff] at hbody
  obtain ⟨e, compiled, order, hresult, hcompiled, horder, hordered, hread⟩ :=
    h.exists_compiled hbody options supply
  obtain ⟨e', compiled', order', hresult', hcompiled', horder', hordered', hread'⟩ :=
    (h.perm hperm).exists_compiled hbody options supply
  refine ⟨e, e', compiled, compiled', hresult, hresult', hcompiled, hcompiled', ?_⟩
  have hsequential := h.perm horder
  refine Term.alpha_of_read_eq .free ?_
  rw [← Term.nameless, ← Term.nameless, hread, hread',
    Environment.defineAll_perm ((horder'.trans hperm).trans horder.symm)
      hsequential.isIrrefutable hsequential.nodup hordered hordered']

/-- Declarations of which one uses itself, and some use others. -/
def countdown : List (Pattern × Expr) :=
  [(.var "one", .lit (.int 1)),
    (.var "count", lam1 "n" (app1 (.var "count") (app (.var "minus") [.var "n", .var "one"]))),
    (.var "start", app1 (.var "count") (.lit (.int 3))),
    (.var "pair", .tuple [.var "start", .var "one"])]

theorem sequential_countdown : Sequential countdown := by
  refine of_ordered ?_ (by decide) (by decide +kernel) ?_
  · simp [countdown]
  · simp only [countdown, List.forall_mem_cons]
    exact ⟨⟨_, rfl⟩, ⟨_, rfl⟩, ⟨_, rfl⟩, ⟨_, rfl⟩, List.forall_mem_nil _⟩

theorem compiled_perm_countdown :
    ∃ e e' compiled compiled',
      (toFixpoint ⟨.validate, true⟩ Pass.groupNesting.rules .initial
          (letIn (valueDecls countdown) (.var "pair"))).result = .ok (e, .initial)
        ∧ (toFixpoint ⟨.validate, true⟩ Pass.groupNesting.rules .initial
          (letIn (valueDecls countdown.reverse) (.var "pair"))).result = .ok (e', .initial)
        ∧ e.compiled = .ok compiled ∧ e'.compiled = .ok compiled'
        ∧ Term.Alpha compiled.term compiled'.term :=
  sequential_countdown.compiled_perm (List.reverse_perm countdown) ⟨_, rfl⟩ ⟨.validate, true⟩
    .initial

end Sequential

end Clausal
