import Clausal.Proofs.FreshSupply
import Clausal.Proofs.Hygiene
import Clausal.Proofs.Reduction.Conversion
import Clausal.Proofs.Simplification.Blocks
import Clausal.Proofs.Surface.Fixpoints
import Clausal.Proofs.Surface.Names

/-!
# Recursive definitions

A block of values defines its names by recursion: in the lambda term that comes of it, each name
stands for a closed term, and these terms satisfy the equations that the declarations state, up to
conversion. Group nesting, reelaboration and the substitution of fixpoints all have a part in it.

## Main results

* `Letrec.exists_compiled_of_fresh`: the lambda term of a block is its body in the environment of
  the block;
* `Letrec.equations`: the equations of a block.
-/

namespace Clausal

open Clausal.Expr

/-! ## Terms -/

namespace Term

variable {name : String} {names : List String} {definitions : String → Term}

/-- The part of a term at a place: a selector for each tuple around it, from the outside. A tuple of
one component has no selector. -/
def select (t : Term) : List (Nat × Nat) → Term
  | [] => t
  | (size, i) :: path =>
    select (if size = 1 then t else .app (.primitive (.select size (i + 1))) t) path

/-- The term with a definition for each of some names. -/
def substAll (names : List String) (definitions : String → Term) (t : Term) : Term :=
  names.foldl (fun t name => t.subst name (definitions name)) t

theorem read_select (t : Term) (path : List (Nat × Nat)) (env : Environment) :
    (t.select path).read env = (t.read env).select path := by
  induction path generalizing t with
  | nil => rfl
  | cons step path ih =>
    rw [select, ih, Nameless.select]
    congr 1
    split <;> rfl

/-- Closed definitions are put into the environment, in any order. -/
theorem read_substAll (h : ∀ name ∈ names, (definitions name).isClosed = true) (t : Term)
    (env : Environment) : (t.substAll names definitions).read env
      = t.read fun name => if name ∈ names then (definitions name).nameless else env name := by
  induction names generalizing t with
  | nil => simp [substAll]
  | cons name names ih =>
    rw [List.forall_mem_cons] at h
    rw [substAll, List.foldl_cons, ← substAll, ih h.2, read_subst, read_eq_nameless h.1]
    refine read_congr fun other _ => ?_
    by_cases heq : other = name
    · rw [heq, Function.update_self, if_pos List.mem_cons_self]
    · simp only [Function.update_of_ne heq, List.mem_cons, heq, false_or]

end Term

/-- An expression with definitions for some names is read in an environment in which the names stand
for the definitions. All other names are those of primitives. -/
theorem Core.Lowers.conv_substAll {e : Expr} {core : Core} (h : Lowers e core)
    {names : List String} {definitions : String → Term} {env : Environment}
    (hclosed : ∀ name ∈ names, (definitions name).isClosed = true)
    (hdefinitions : ∀ name ∈ names, Nameless.Conv (definitions name).nameless (env name))
    (hprimitives : ∀ name ∉ names, env name = Environment.primitives name)
    (hfree : ∀ name ∈ e.free, name ∉ names → (Primitive.ofName? name).isSome = true) :
    Nameless.Conv ((core.toTermIn names).substAll names definitions).nameless (e.read env) := by
  rw [Term.nameless, Term.read_substAll hclosed, h.read_toTermIn]
  refine conv_read fun name hname => ?_
  by_cases hmem : name ∈ names
  · rw [Term.ofName, if_pos (List.contains_iff_mem.2 hmem), Term.read, if_pos hmem]
    exact hdefinitions name hmem
  · have hcontains : names.contains name = false := by simpa using hmem
    obtain ⟨primitive, hprimitive⟩ := Option.isSome_iff_exists.1 (hfree name hname hmem)
    rw [hprimitives name hmem, Environment.primitives, Term.ofName, Term.ofName, hprimitive,
      hcontains]
    exact .refl _

/-! ## Blocks -/

/-- The names that a block of values binds and uses are among its names. -/
theorem mem_namesDecls_valueDecls {bindings : List (Pattern × Expr)} {binding : Pattern × Expr}
    (hbinding : binding ∈ bindings) {name : String}
    (h : name ∈ binding.1.boundNames ∨ name ∈ binding.2.free) :
    name ∈ namesDecls (valueDecls bindings) := by
  have hdecl : .value binding.1 binding.2 ∈ valueDecls bindings :=
    List.mem_map.2 ⟨binding, hbinding, rfl⟩
  rcases h with h | h
  · exact mem_namesDecls_of_mem_boundNames (List.mem_flatMap.2 ⟨_, hdecl, h⟩)
  · exact mem_namesDecls_of_mem_bodies (List.mem_filterMap.2 ⟨_, hdecl, rfl⟩)
      (free_subset_names _ h)

/-- The names that the declarations of a block bind. -/
def definedNames (bindings : List (Pattern × Expr)) : List String :=
  bindings.flatMap fun binding => binding.1.boundNames

/-- A block with one of its names for the body uses no other variables than with any body. -/
theorem free_valueDecls_var_subset {bindings : List (Pattern × Expr)} {name : String}
    (hname : name ∈ definedNames bindings) (body : Expr) :
    (letIn (valueDecls bindings) (.var name)).free ⊆ (letIn (valueDecls bindings) body).free := by
  intro other hother
  obtain ⟨hfree, hunbound⟩ := mem_free_letIn_valueDecls.1 hother
  refine mem_free_letIn_valueDecls.2 ⟨.inr (hfree.resolve_left fun heq => ?_), hunbound⟩
  obtain ⟨binding, hbinding, hbound⟩ := List.mem_flatMap.1 hname
  exact hunbound binding hbinding (mem_free_var.1 heq ▸ hbound)

theorem names_valueDecls_var_subset {bindings : List (Pattern × Expr)} {name : String}
    (hname : name ∈ definedNames bindings) (body : Expr) :
    (letIn (valueDecls bindings) (.var name)).names ⊆ (letIn (valueDecls bindings) body).names := by
  intro other hother
  refine List.mem_append_left _ ?_
  rcases List.mem_append.1 hother with hmem | hmem
  · exact hmem
  · obtain ⟨binding, hbinding, hbound⟩ := List.mem_flatMap.1 hname
    exact List.mem_singleton.1 hmem ▸ mem_namesDecls_valueDecls hbinding (.inl hbound)

/-- Declarations that define their names: there is at least one, their patterns are irrefutable and
bind each name once, and their values have core expressions. -/
structure Letrec (bindings : List (Pattern × Expr)) : Prop where
  nonempty : bindings ≠ []
  isIrrefutable : ∀ binding ∈ bindings, binding.1.isIrrefutable = true
  nodup : (definedNames bindings).Nodup
  exists_core : ∀ binding ∈ bindings, ∃ core, Core.ofExpr binding.2 = .ok core

/-- The passes that a block of values goes through. -/
def blockPasses : List Pass := [.groupNesting, .reelaboration]

namespace Letrec

variable {bindings : List (Pattern × Expr)} {body : Expr} {core : Core}
  {supply : FreshSupply} {name : String}

theorem generates (h : Letrec bindings) : ∀ binding ∈ bindings, Grammar.core.Generates binding.2 :=
  fun binding hbinding => Core.exists_ofExpr_eq_ok_iff.1 (h.exists_core binding hbinding)

/-- The lambda term of a block is the body, read in an environment that the block makes. The
environment does not depend on the body, and neither do the variables that are drawn. -/
theorem exists_compiled_of_fresh (h : Letrec bindings) (options : SimplifyOptions)
    (supply : FreshSupply) :
    ∃ groups, Grouping bindings groups ∧ ∀ body, Grammar.core.Generates body →
      (lastState options blockPasses supply (letIn (valueDecls bindings) body)).2
          = ⟨supply.next + freshCount (groups.map groupBinding)⟩
        ∧ ((∀ name ∈ (letIn (valueDecls bindings) body).free,
            (Primitive.ofName? name).isSome = true) →
          (∀ number, supply.next ≤ number →
            number < supply.next + freshCount (groups.map groupBinding) →
            FreshSupply.nameOf number ∉ body.free ∧ ∀ binding ∈ bindings,
              FreshSupply.nameOf number ∉ binding.1.boundNames
                ∧ FreshSupply.nameOf number ∉ binding.2.free) →
          ∃ e' compiled, (runPasses options blockPasses supply
              (letIn (valueDecls bindings) body)).result = .ok e'
            ∧ e'.compiled = .ok compiled ∧ compiled.term.isClosed = true
            ∧ Nameless.Conv compiled.term.nameless
              (body.read (Environment.primitives.defineAll (groups.map groupBinding)))) := by
  obtain ⟨groups, hgroups, -, hnesting⟩ :=
    toFixpoint_groupNesting h.nonempty h.isIrrefutable h.generates
  have hpatterns := hgroups.isIrrefutable h.isIrrefutable
  have hvalues := hgroups.generates h.generates
  refine ⟨groups, hgroups, fun body hbody => ?_⟩
  obtain ⟨e', hreelaboration, hconv⟩ := (toFixpoint_nest hpatterns hvalues hbody :
    ∃ e', (toFixpoint options Pass.reelaboration.rules supply _).result = .ok (e', _) ∧ _)
  refine ⟨?_, fun hclosed hfresh => ?_⟩
  · rw [blockPasses, lastState_cons_of_ok _ (hnesting options supply body hbody),
      lastState_cons_of_ok _ hreelaboration]
    rfl
  -- a name that is in no declaration is in no group
  have hgroupsFresh : ∀ number, supply.next ≤ number →
      number < supply.next + freshCount (groups.map groupBinding) →
      FreshSupply.nameOf number ∉ body.free ∧ ∀ binding ∈ groups.map groupBinding,
        FreshSupply.nameOf number ∉ binding.1.boundNames
          ∧ FreshSupply.nameOf number ∉ binding.2.free := by
    intro number hnext hlt
    obtain ⟨hbodyFresh, hbindingsFresh⟩ := hfresh number hnext hlt
    refine ⟨hbodyFresh, fun group hgroup => ⟨fun hmem => ?_, fun hmem => ?_⟩⟩
    · obtain ⟨binding, hbinding, hmem⟩ := hgroups.exists_of_mem_boundNames hgroup hmem
      exact (hbindingsFresh binding hbinding).1 hmem
    · obtain ⟨binding, hbinding, hmem⟩ := hgroups.exists_of_mem_free hgroup hmem
      exact (hbindingsFresh binding hbinding).2 hmem
  have hresult : (runPasses options blockPasses supply (letIn (valueDecls bindings) body)).result
      = .ok e' := by
    rw [blockPasses, (runPasses_cons_of_ok (hnesting options supply body hbody)).2,
      (runPasses_cons_of_ok hreelaboration).2, runPasses]
  have hcore : Grammar.core.Generates e' := by
    have hnested : Grammar.nested.Generates (nest (groups.map groupBinding) body) :=
      generates_nest hpatterns (fun binding hbinding => (hvalues binding hbinding).nested)
        hbody.nested
    obtain ⟨_, _, hgenerates, hcore⟩ :=
      (Pass.toFixpoint_generates Pass.reelaboration supply hnested : ∃ e' supply',
        (toFixpoint options _ _ _).result = .ok (e', supply') ∧ Grammar.core.Generates e')
    cases hreelaboration.symm.trans hgenerates
    exact hcore
  have hfree : ∀ name ∈ e'.free, (Primitive.ofName? name).isSome = true := fun name hname =>
    hclosed name (runPasses_free_subset hresult hname)
  obtain ⟨compiled, hcompiled, hterm, hread⟩ := Expr.exists_compiled hcore hfree
  refine ⟨e', compiled, hresult, hcompiled, hterm, ?_⟩
  rw [hread, ← read_nest hpatterns]
  exact hconv hgroupsFresh _

/-- The same with a supply that avoids all names of the block. -/
theorem exists_compiled (h : Letrec bindings) (options : SimplifyOptions) (supply : FreshSupply) :
    ∃ groups, Grouping bindings groups ∧ ∀ body, Grammar.core.Generates body →
      (∀ name ∈ (letIn (valueDecls bindings) body).free,
        (Primitive.ofName? name).isSome = true) →
      supply.Avoids bindings.length (letIn (valueDecls bindings) body).names →
      ∃ e' compiled, (runPasses options blockPasses supply
          (letIn (valueDecls bindings) body)).result = .ok e'
        ∧ e'.compiled = .ok compiled ∧ compiled.term.isClosed = true
        ∧ Nameless.Conv compiled.term.nameless
          (body.read (Environment.primitives.defineAll (groups.map groupBinding))) := by
  obtain ⟨groups, hgroups, hcompiles⟩ := h.exists_compiled_of_fresh options supply
  refine ⟨groups, hgroups, fun body hbody hclosed havoids =>
    (hcompiles body hbody).2 hclosed fun number hnext hlt => ?_⟩
  -- no more variables are drawn than there are declarations
  have hcount : freshCount (groups.map groupBinding) ≤ bindings.length :=
    (List.countP_le_length).trans (by simpa using hgroups.length_le)
  have hnot := havoids number hnext (by omega)
  rw [names, List.mem_append, not_or] at hnot
  refine ⟨fun hmem => hnot.2 (free_subset_names body hmem), fun binding hbinding => ?_⟩
  exact ⟨fun hmem => hnot.1 (mem_namesDecls_valueDecls hbinding (.inl hmem)),
    fun hmem => hnot.1 (mem_namesDecls_valueDecls hbinding (.inr hmem))⟩

/-- A block of recursive values compiles to a closed term. Each name that it binds has a closed
definition, such that the term is convertible to the body with the definitions for the names, and
each definition to the part, at the place of the name, of the value with the definitions for the
names. -/
theorem equations (h : Letrec bindings) (options : SimplifyOptions) (hbody : Core.ofExpr body = .ok core)
    (hclosed : ∀ name ∈ (letIn (valueDecls bindings) body).free,
      (Primitive.ofName? name).isSome = true)
    (havoids : supply.Avoids bindings.length (letIn (valueDecls bindings) body).names) :
    ∃ e' compiled, ∃ definitions : String → Term,
      (runPasses options blockPasses supply (letIn (valueDecls bindings) body)).result = .ok e'
        ∧ e'.compiled = .ok compiled
        ∧ (∀ name ∈ definedNames bindings, (definitions name).isClosed = true)
        ∧ compiled.term.Convertible
          ((core.toTermIn (definedNames bindings)).substAll (definedNames bindings) definitions)
        ∧ ∀ binding ∈ bindings, ∀ value, Core.ofExpr binding.2 = .ok value →
          ∀ path name, binding.1.BindsAt path name → (definitions name).Convertible
            (((value.toTermIn (definedNames bindings)).substAll (definedNames bindings)
              definitions).select path) := by
  obtain ⟨groups, hgroups, hcompiles⟩ := h.exists_compiled options supply
  generalize hρ : Environment.primitives.defineAll (groups.map groupBinding) = ρ at hcompiles
  -- the definition of a name is the term of the block with the name for its body
  have hexists (name : String) : ∃ t : Term, name ∈ definedNames bindings →
      t.isClosed = true ∧ Nameless.Conv t.nameless (ρ name) := by
    by_cases hname : name ∈ definedNames bindings
    · obtain ⟨-, compiled, -, -, hterm, hread⟩ := hcompiles (.var name)
        (Grammar.generates_var name)
        (fun other hother => hclosed other (free_valueDecls_var_subset hname body hother))
        (havoids.mono (names_valueDecls_var_subset hname body))
      exact ⟨compiled.term, fun _ => ⟨hterm, hread⟩⟩
    · exact ⟨.var name, fun h => absurd h hname⟩
  choose definitions hdefinitions using hexists
  have hprimitives : ∀ name ∉ definedNames bindings, ρ name = Environment.primitives name := by
    intro name hname
    rw [← hρ]
    refine Environment.defineAll_of_not_mem (List.forall_mem_map.2 fun group hgroup hmem => ?_) _
    rw [boundNames_groupBinding, List.mem_flatMap] at hmem
    obtain ⟨binding, hbinding, hmem⟩ := hmem
    exact hname (List.mem_flatMap.2 ⟨binding, hgroups.mem_bindings hgroup hbinding, hmem⟩)
  have hconv {e : Expr} {core : Core} (h : Core.ofExpr e = .ok core)
      (hfree : ∀ name ∈ e.free, (name ∈ body.free ∨ ∃ binding ∈ bindings, name ∈ binding.2.free)) :
      Nameless.Conv ((core.toTermIn (definedNames bindings)).substAll (definedNames bindings)
        definitions).nameless (e.read ρ) := by
    refine (Core.lowers_of_ofExpr h).conv_substAll (fun name hname => (hdefinitions name hname).1)
      (fun name hname => (hdefinitions name hname).2) hprimitives fun name hname hunbound => ?_
    refine hclosed name (mem_free_letIn_valueDecls.2 ⟨hfree name hname, ?_⟩)
    exact fun binding hbinding hmem => hunbound (List.mem_flatMap.2 ⟨binding, hbinding, hmem⟩)
  obtain ⟨e', compiled, hresult, hcompiled, -, hread⟩ :=
    hcompiles body (Core.exists_ofExpr_eq_ok_iff.1 ⟨core, hbody⟩) hclosed havoids
  refine ⟨e', compiled, definitions, hresult, hcompiled, fun name hname => (hdefinitions name hname).1,
    Term.convertible_iff.2 (hread.trans (hconv hbody fun name hname => .inl hname).symm), ?_⟩
  intro binding hbinding value hvalue path name hplace
  have hvalue := hconv hvalue fun name hname => .inr ⟨binding, hbinding, hname⟩
  have hname : name ∈ definedNames bindings :=
    List.mem_flatMap.2 ⟨binding, hbinding, hplace.mem_boundNames⟩
  have hequation : Nameless.Conv (ρ name) ((binding.2.read ρ).select path) := by
    have hmem (binding : Pattern × Expr) : binding ∈ groups.flatten ↔ binding ∈ bindings :=
      hgroups.perm.mem_iff
    rw [← hρ]
    refine Environment.conv_defineAll Environment.closed_primitives ?_ ?_ hgroups.ordered
      ((hmem binding).2 hbinding) hplace
    · exact fun binding hbinding => h.isIrrefutable binding ((hmem binding).1 hbinding)
    · exact (hgroups.perm.flatMap_right _).nodup_iff.2 h.nodup
  refine Term.convertible_iff.2 ((hdefinitions name hname).2.trans (hequation.trans ?_))
  rw [Term.nameless, Term.read_select]
  exact hvalue.symm.select path

/-- Declarations in which a tuple and a sum use each other: `(a, b) = (1, c)` and
`c = plus a a`. -/
def pairAndSum : List (Pattern × Expr) :=
  [(.tuple [.var "a", .var "b"], .tuple [.lit (.int 1), .var "c"]),
    (.var "c", .app (.var "plus") [.var "a", .var "a"])]

theorem letrec_pairAndSum : Letrec pairAndSum where
  nonempty := List.cons_ne_nil _ _
  isIrrefutable := by decide
  nodup := by decide
  exists_core := by simp [pairAndSum, Core.exists_ofExpr_eq_ok_iff, Grammar.generates_tuple,
    Grammar.generates_app]

theorem equations_pairAndSum :
    ∃ definitions : String → Term, (definitions "b").isClosed = true
      ∧ (definitions "b").Convertible (.app (.primitive (.select 2 2))
        ((Core.toTermIn ["a", "b", "c"] (.tuple [.const (.literal (.int 1)), .var "c"])).substAll
          ["a", "b", "c"] definitions)) := by
  have hbody : Core.ofExpr (.var "b") = .ok (.var "b") := rfl
  obtain ⟨-, -, definitions, -, -, hclosed, -, hequations⟩ :=
    letrec_pairAndSum.equations ⟨.validate, true⟩ hbody (by decide +kernel)
      (FreshSupply.avoids_of_past (Nat.le_refl _) (by decide +kernel))
  exact ⟨definitions, hclosed "b" (by decide), hequations _ List.mem_cons_self _ rfl [(2, 1)] "b"
    (.tuple rfl (.var "b"))⟩

end Letrec

end Clausal
