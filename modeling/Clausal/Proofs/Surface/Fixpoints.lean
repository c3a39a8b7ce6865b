import Clausal.Proofs.Simplification.Nesting
import Clausal.Proofs.Surface.Reading

/-!
# The fixpoints that a nest defines

A nest of blocks is read as its body in the environment that its bindings define, one after the
other. In that environment every name satisfies the equation that its declaration states: it is a
part of the value of the declaration, and all names in the value stand for what the environment
says.

## Main results

* `Environment.project_of_bindsAt`: what a pattern binds a name to;
* `Environment.conv_fixpoint`: a fixpoint is the value read where the names are parts of it;
* `Environment.conv_defineAll`: the equations of all declarations.
-/

namespace Clausal

open Clausal.Expr

/-! ## Places in patterns -/

/-- Where a pattern of tuples binds a name: the sizes of the tuples around it and the positions in
them, from the outside. -/
inductive Pattern.BindsAt : Pattern → List (Nat × Nat) → String → Prop
  | var (name : String) : BindsAt (.var name) [] name
  | tuple {elements : List Pattern} {i : Nat} {element : Pattern} {path : List (Nat × Nat)}
      {name : String} : elements[i]? = some element → BindsAt element path name →
      BindsAt (.tuple elements) ((elements.length, i) :: path) name

theorem Pattern.BindsAt.mem_boundNames {pattern : Pattern} {path : List (Nat × Nat)}
    {name : String} (h : pattern.BindsAt path name) : name ∈ pattern.boundNames := by
  induction h with
  | var name => exact List.mem_singleton_self name
  | tuple helement _ ih =>
    rw [boundNames, boundNamesList_eq_flatMap]
    exact List.mem_flatMap.2 ⟨_, List.mem_of_getElem? helement, ih⟩

mutual

/-- An irrefutable pattern binds each of its names at a place. -/
theorem Pattern.exists_bindsAt (pattern : Pattern) (hpattern : pattern.isIrrefutable = true)
    {name : String} (h : name ∈ pattern.boundNames) : ∃ path, pattern.BindsAt path name := by
  cases pattern with
  | var other =>
    obtain rfl := List.mem_singleton.1 h
    exact ⟨[], .var name⟩
  | tuple elements =>
    obtain ⟨i, element, path, hi, hpath⟩ := exists_getElem?_bindsAt elements hpattern h
    exact ⟨_, .tuple hi hpath⟩
  | wildcard | lit _ | con _ _ => contradiction

theorem Pattern.exists_getElem?_bindsAt (patterns : List Pattern)
    (hpatterns : areIrrefutable patterns = true) {name : String}
    (h : name ∈ boundNamesList patterns) :
    ∃ (i : Nat) (element : Pattern) (path : List (Nat × Nat)),
      patterns[i]? = some element ∧ element.BindsAt path name := by
  cases patterns with
  | nil => contradiction
  | cons pattern patterns =>
    rw [areIrrefutable, Bool.and_eq_true] at hpatterns
    rcases List.mem_append.1 h with h | h
    · obtain ⟨path, hpath⟩ := exists_bindsAt pattern hpatterns.1 h
      exact ⟨0, pattern, path, rfl, hpath⟩
    · obtain ⟨i, element, path, hi, hpath⟩ := exists_getElem?_bindsAt patterns hpatterns.2 h
      exact ⟨i + 1, element, path, hi, hpath⟩

end

/-- The part of a value at a place. A tuple of one component is the component. -/
def Nameless.select (t : Nameless) : List (Nat × Nat) → Nameless
  | [] => t
  | (size, i) :: path =>
    select (if size = 1 then t else .app (.const (.primitive (.select size (i + 1)))) t) path

theorem Nameless.Conv.select {t u : Nameless} (h : Conv t u) (path : List (Nat × Nat)) :
    Conv (t.select path) (u.select path) := by
  induction path generalizing t u with
  | nil => exact h
  | cons step path ih =>
    refine ih ?_
    split
    · exact h
    · exact (Conv.refl _).app h

theorem Nameless.getElem?_parts {count i : Nat} (hi : i < count) (value : Nameless) :
    (parts count value)[i]?
      = some (if count = 1 then value else .app (.const (.primitive (.select count (i + 1)))) value) := by
  unfold parts
  split
  · next hcount =>
    obtain rfl : i = 0 := by omega
    rfl
  · rw [List.getElem?_map, List.getElem?_range hi, Option.map_some]

/-- A component of a closed tuple is the part of the tuple at its place. -/
theorem Nameless.conv_select_fieldsTerm {components : List Nameless} {t : Nameless} {i : Nat}
    (hclosed : ∀ component ∈ components, component.Closed) (hi : components[i]? = some t)
    (path : List (Nat × Nat)) :
    Conv ((fieldsTerm components).select ((components.length, i) :: path)) (t.select path) := by
  rw [select]
  refine Conv.select ?_ path
  by_cases hlength : components.length = 1
  · obtain ⟨single, rfl⟩ := List.length_eq_one_iff.1 hlength
    obtain rfl : i = 0 := by
      have := (List.getElem?_eq_some_iff.1 hi).1
      omega
    obtain rfl := Option.some.inj hi
    exact Conv.refl _
  · rw [if_neg hlength, fieldsTerm.eq_2]
    · exact conv_select hclosed hi
    · exact fun single heq => hlength (by rw [heq, List.length_singleton])

/-- The parts of a closed tuple are its components. -/
theorem Nameless.conv_parts {components : List Nameless} {t : Nameless}
    (hclosed : ∀ component ∈ components, component.Closed) (h : Conv t (fieldsTerm components)) :
    List.Forall₂ Conv (parts components.length t) components := by
  refine List.forall₂_iff_get.2 ⟨Environment.length_parts _ _, fun i hi hi' => ?_⟩
  have hpart : (parts components.length t)[i]? = some (t.select [(components.length, i)]) :=
    getElem?_parts hi' t
  obtain ⟨_, heq⟩ := List.getElem?_eq_some_iff.1 hpart
  rw [List.get_eq_getElem, heq]
  refine (h.select _).trans (conv_select_fieldsTerm hclosed ?_ [])
  rw [List.get_eq_getElem, List.getElem?_eq_getElem]

namespace Environment

variable {env : Environment} {name : String}

theorem projectAll_of_getElem? {patterns : List Pattern} {values : List Nameless} {i : Nat}
    {pattern : Pattern} {value : Nameless} (hnodup : (Pattern.boundNamesList patterns).Nodup)
    (hpattern : patterns[i]? = some pattern) (hvalue : values[i]? = some value)
    (hname : name ∈ pattern.boundNames) (env : Environment) :
    ∃ env' : Environment, env.projectAll patterns values name = env'.project pattern value name := by
  induction patterns generalizing values i env with
  | nil => contradiction
  | cons first patterns ih =>
    cases values with
    | nil => contradiction
    | cons firstValue values =>
      rw [Pattern.boundNamesList, List.nodup_append] at hnodup
      obtain ⟨-, hrest, hdisjoint⟩ := hnodup
      rw [projectAll]
      cases i with
      | zero =>
        obtain rfl := Option.some.inj hpattern
        obtain rfl := Option.some.inj hvalue
        -- no later pattern binds the name again
        refine ⟨env, projectAll_of_not_mem _ _ _ fun hmem => ?_⟩
        exact hdisjoint name hname name hmem rfl
      | succ i => exact ih hrest hpattern hvalue _

/-- A name stands for the part of the value at its place. -/
theorem project_of_bindsAt {pattern : Pattern} {path : List (Nat × Nat)}
    (h : pattern.BindsAt path name) (hnodup : pattern.boundNames.Nodup) (value : Nameless)
    (env : Environment) : env.project pattern value name = value.select path := by
  induction h generalizing value env with
  | var name =>
    rw [project]
    exact Function.update_self _ _ _
  | @tuple elements i element path name helement hname ih =>
    obtain ⟨hi, -⟩ := List.getElem?_eq_some_iff.1 helement
    rw [Pattern.boundNames] at hnodup
    obtain ⟨env', heq⟩ := projectAll_of_getElem? hnodup helement
      (Nameless.getElem?_parts hi value) hname.mem_boundNames env
    rw [project, heq, ih]
    · rfl
    · rw [Pattern.boundNamesList_eq_flatMap, List.nodup_flatMap] at hnodup
      exact hnodup.1 element (List.mem_of_getElem? helement)

/-! ## Fixpoints -/

/-- A fixpoint is the value, read where the names of the pattern stand for the parts of the
fixpoint. -/
theorem conv_fixpoint (env : Environment) (pattern : Pattern) (value : Expr) :
    Nameless.Conv (env.fixpoint pattern fun env => value.read env)
      (value.read (env.project pattern (env.fixpoint pattern fun env => value.read env))) := by
  refine (Nameless.conv_fix _).trans ((Nameless.conv_beta _ _ _).trans (.of_eq ?_))
  have henv (r : Nameless) : (fun name => (env.shift name).subst (Nameless.cons r .bound)) = env :=
    funext fun name => Nameless.instantiate_shift (env name) r
  rw [Nameless.instantiate, subst_read, project_subst, henv]
  rfl

/-- Whether all names stand for closed terms. -/
def Closed (env : Environment) : Prop := ∀ name, (env name).Closed

theorem Closed.fixpoint (henv : env.Closed) {pattern : Pattern}
    (hpattern : pattern.isIrrefutable = true) (value : Expr) :
    (env.fixpoint pattern fun env => value.read env).Closed := by
  refine ⟨trivial, closedAt_read fun name _ => ?_⟩
  have hbound : (Nameless.bound 0).ClosedAt 1 := Nat.one_pos
  exact closedAt_project hpattern hbound fun _ => Nameless.closedAt_shift.2 (henv name)

/-- The environment that a recursive binding makes. -/
def define (env : Environment) (binding : Pattern × Expr) : Environment :=
  env.project binding.1 (env.fixpoint binding.1 fun env => binding.2.read env)

theorem Closed.define (henv : env.Closed) {binding : Pattern × Expr}
    (hpattern : binding.1.isIrrefutable = true) : (env.define binding).Closed := fun name =>
  closedAt_project hpattern (henv.fixpoint hpattern binding.2) fun _ => henv name

/-- The environment that the bindings of a nest make. -/
def defineAll (env : Environment) (bindings : List (Pattern × Expr)) : Environment :=
  bindings.foldl define env

theorem defineAll_of_not_mem {bindings : List (Pattern × Expr)}
    (h : ∀ binding ∈ bindings, name ∉ binding.1.boundNames) (env : Environment) :
    env.defineAll bindings name = env name := by
  induction bindings generalizing env with
  | nil => rfl
  | cons binding bindings ih =>
    rw [List.forall_mem_cons] at h
    exact (ih h.2 _).trans (project_of_not_mem _ _ _ h.1)

end Environment

/-- A nest is read as its body, in the environment that its bindings make. -/
theorem Expr.read_nest {bindings : List (Pattern × Expr)}
    (hpatterns : ∀ binding ∈ bindings, binding.1.isIrrefutable = true) (body : Expr)
    (env : Environment) : (nest bindings body).read env = body.read (env.defineAll bindings) := by
  induction bindings generalizing env with
  | nil => rfl
  | cons binding bindings ih =>
    rw [List.forall_mem_cons] at hpatterns
    rw [nest_cons, read_letIn hpatterns.1, ih hpatterns.2]
    rfl

namespace Environment

variable {env : Environment} {name : String}

/-! ## Equations -/

/-- In a group that is bound at once, every name is the part of its value at its place. -/
theorem conv_define_groupBinding {group : List (Pattern × Expr)} (henv : env.Closed)
    (hpatterns : ∀ binding ∈ group, binding.1.isIrrefutable = true)
    (hnodup : (group.flatMap fun binding => binding.1.boundNames).Nodup) {binding : Pattern × Expr}
    (hbinding : binding ∈ group) {path : List (Nat × Nat)}
    (hname : binding.1.BindsAt path name) :
    Nameless.Conv (env.define (groupBinding group) name)
      ((binding.2.read (env.define (groupBinding group))).select path) := by
  have hclosed := henv.define (isIrrefutable_groupBinding hpatterns)
  rw [← boundNames_groupBinding] at hnodup
  nth_rewrite 1 [define]
  -- a single declaration is bound as it is, several by a tuple of their patterns
  by_cases hlength : group.length = 1
  · obtain ⟨single, rfl⟩ := List.length_eq_one_iff.1 hlength
    obtain rfl := List.mem_singleton.1 hbinding
    rw [groupBinding] at hnodup ⊢
    rw [project_of_bindsAt hname hnodup]
    exact (conv_fixpoint env _ _).select path
  · have hgroup : groupBinding group = (.tuple (group.map Prod.fst), .tuple (group.map Prod.snd)) :=
      groupBinding.eq_2 group fun single heq => hlength (by rw [heq, List.length_singleton])
    generalize hρ : env.define (groupBinding group) = ρ at hclosed ⊢
    obtain ⟨i, hi⟩ := List.getElem?_of_mem hbinding
    -- in the tuple, the path of the name begins with the place of its declaration
    have hpattern : (groupBinding group).1.BindsAt ((group.length, i) :: path) name := by
      rw [hgroup, ← List.length_map Prod.fst]
      exact .tuple (by rw [List.getElem?_map, hi, Option.map_some]) hname
    rw [project_of_bindsAt hpattern hnodup]
    have hfixpoint := conv_fixpoint env (groupBinding group).1 (groupBinding group).2
    have htuple : (groupBinding group).2.read ρ
        = Nameless.fieldsTerm ((group.map Prod.snd).map (read ρ)) := by
      rw [hgroup, read_tuple]
    rw [← define, hρ, htuple] at hfixpoint
    -- one unfolding of the fixpoint gives the tuple of the values, which the path selects from
    refine (hfixpoint.select _).trans ?_
    generalize hcomponents : (group.map Prod.snd).map (read ρ) = components
    have hcount : group.length = components.length := by
      rw [← hcomponents, List.length_map, List.length_map]
    rw [hcount]
    refine Nameless.conv_select_fieldsTerm ?_ ?_ path
    · rw [← hcomponents, List.map_map, List.forall_mem_map]
      exact fun binding _ => closedAt_read fun name _ => hclosed name
    · rw [← hcomponents, List.map_map, List.getElem?_map, hi]
      rfl

/-- In the environment of a nest, a name that a declaration binds is the part of the value of the
declaration at its place, if no group uses a name that a later one binds. -/
theorem conv_defineAll {groups : List (List (Pattern × Expr))} (henv : env.Closed)
    (hpatterns : ∀ binding ∈ groups.flatten, binding.1.isIrrefutable = true)
    (hnodup : (groups.flatten.flatMap fun binding => binding.1.boundNames).Nodup)
    (hordered : groups.Pairwise fun group later => ∀ user ∈ group, ∀ binder ∈ later,
      ∀ name ∈ user.2.free, name ∉ binder.1.boundNames)
    {binding : Pattern × Expr} (hbinding : binding ∈ groups.flatten) {path : List (Nat × Nat)}
    (hname : binding.1.BindsAt path name) :
    Nameless.Conv (env.defineAll (groups.map groupBinding) name)
      ((binding.2.read (env.defineAll (groups.map groupBinding))).select path) := by
  induction groups generalizing env with
  | nil => contradiction
  | cons group groups ih =>
    obtain ⟨hgroup, hgroups⟩ := List.pairwise_cons.1 hordered
    simp only [List.flatten_cons, List.forall_mem_append] at hpatterns
    rw [List.flatten_cons, List.flatMap_append, List.nodup_append] at hnodup
    obtain ⟨hnodup, hrest, hdisjoint⟩ := hnodup
    have hirrefutable := isIrrefutable_groupBinding hpatterns.1
    rw [List.map_cons, defineAll, List.foldl_cons, ← defineAll]
    rw [List.flatten_cons, List.mem_append] at hbinding
    rcases hbinding with hbinding | hbinding
    -- neither the name nor a variable of the value is bound again
    · have hlater (other : String)
          (h : ∀ later ∈ groups, ∀ binder ∈ later, other ∉ binder.1.boundNames) :
          (env.define (groupBinding group)).defineAll (groups.map groupBinding) other
            = env.define (groupBinding group) other := by
        refine defineAll_of_not_mem (List.forall_mem_map.2 fun later hlater hmem => ?_) _
        obtain ⟨binder, hbinder, hmem⟩ := mem_boundNames_groupBinding.1 hmem
        exact h later hlater binder hbinder hmem
      rw [hlater name fun later hlater binder hbinder hmem => ?_,
        read_congr fun other hother => hlater other fun later hlater binder hbinder => ?_]
      · exact conv_define_groupBinding henv hpatterns.1 hnodup hbinding hname
      · exact hgroup later hlater binding hbinding binder hbinder other hother
      · refine hdisjoint name (List.mem_flatMap.2 ⟨binding, hbinding, hname.mem_boundNames⟩) name
          (List.mem_flatMap.2 ⟨binder, ?_, hmem⟩) rfl
        exact List.mem_flatten.2 ⟨later, hlater, hbinder⟩
    · exact ih (henv.define hirrefutable) hpatterns.2 hrest hgroups hbinding

end Environment

end Clausal
