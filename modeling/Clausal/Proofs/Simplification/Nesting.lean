import Clausal.Proofs.Dependency.Groups
import Clausal.Proofs.Surface.Scopes
import Clausal.Simplification.Rule

/-!
# Nests of blocks

Group nesting makes a nest of blocks out of one block of values. The declarations are grouped, each
group is bound at once, and no declaration uses a name that a group further in binds. So every name
is in scope where it is used.

## Main results

* `exists_nestGroups?_eq`: what comes of a block of several values, in groups that use each other;
* `Expr.mem_free_nest`: a nest binds all names of its groups everywhere.
-/

namespace Clausal

open Clausal.Expr

open Relation (ReflTransGen)

variable {name : String} {group : List (Pattern × Expr)} {groups : List (List (Pattern × Expr))}
  {bindings : List (Pattern × Expr)}

/-! ## Groups -/

/-- The pattern and the value that bind a group at once. -/
def groupBinding : List (Pattern × Expr) → Pattern × Expr
  | [binding] => binding
  | group => (.tuple (group.map Prod.fst), .tuple (group.map Prod.snd))

theorem groupDecl_eq (group : List (Pattern × Expr)) :
    groupDecl group = .value (groupBinding group).1 (groupBinding group).2 := by
  rcases group with _ | ⟨binding, _ | ⟨_, _⟩⟩ <;> rfl

theorem boundNames_groupBinding (group : List (Pattern × Expr)) :
    (groupBinding group).1.boundNames = group.flatMap fun binding => binding.1.boundNames := by
  unfold groupBinding
  split
  · simp
  · rw [Pattern.boundNames, Pattern.boundNamesList_eq_flatMap, List.flatMap_map]

theorem mem_boundNames_groupBinding :
    name ∈ (groupBinding group).1.boundNames
      ↔ ∃ binding ∈ group, name ∈ binding.1.boundNames := by
  rw [boundNames_groupBinding, List.mem_flatMap]

theorem mem_free_groupBinding :
    name ∈ (groupBinding group).2.free ↔ ∃ binding ∈ group, name ∈ binding.2.free := by
  unfold groupBinding
  split
  · simp
  · simp only [mem_free_tuple, List.mem_map, exists_exists_and_eq_and]

/-- A group of irrefutable patterns is bound by one. -/
theorem isIrrefutable_groupBinding (h : ∀ binding ∈ group, binding.1.isIrrefutable = true) :
    (groupBinding group).1.isIrrefutable = true := by
  unfold groupBinding
  split
  · exact h _ List.mem_cons_self
  · rw [Pattern.isIrrefutable, Pattern.areIrrefutable_eq_all, List.all_map, List.all_eq_true]
    exact h

/-- Whether declarations are put into groups, none of which uses a name that a later one binds. -/
structure Grouping (bindings : List (Pattern × Expr)) (groups : List (List (Pattern × Expr))) :
    Prop where
  nonempty : ∀ group ∈ groups, group ≠ []
  perm : groups.flatten.Perm bindings
  ordered : groups.Pairwise fun group later => ∀ user ∈ group, ∀ binder ∈ later,
    ∀ name ∈ user.2.free, name ∉ binder.1.boundNames

theorem Grouping.of_perm {bindings' : List (Pattern × Expr)} (h : Grouping bindings groups)
    (hperm : bindings.Perm bindings') : Grouping bindings' groups :=
  ⟨h.nonempty, h.perm.trans hperm, h.ordered⟩

/-- A group stands before those that bind no name that it uses. -/
theorem Grouping.cons (h : Grouping bindings groups) (hgroup : group ≠ [])
    (hordered : ∀ user ∈ group, ∀ binder ∈ bindings, ∀ name ∈ user.2.free,
      name ∉ binder.1.boundNames) :
    Grouping (group ++ bindings) (group :: groups) := by
  refine ⟨List.forall_mem_cons.2 ⟨hgroup, h.nonempty⟩, ?_, List.pairwise_cons.2 ⟨?_, h.ordered⟩⟩
  · rw [List.flatten_cons]
    exact h.perm.append_left _
  · intro later hlater user huser binder hbinder
    exact hordered user huser binder (h.perm.subset (List.mem_flatten_of_mem hlater hbinder))

/-! ## Nests -/

/-- A nest of blocks of one value each, the first outermost. -/
def Expr.nest (bindings : List (Pattern × Expr)) (body : Expr) : Expr :=
  bindings.foldr (fun binding inner => .letIn [.value binding.1 binding.2] inner) body

@[simp] theorem nest_nil (body : Expr) : nest [] body = body := rfl

@[simp] theorem nest_cons (binding : Pattern × Expr) (bindings : List (Pattern × Expr))
    (body : Expr) :
    nest (binding :: bindings) body = letIn [.value binding.1 binding.2] (nest bindings body) :=
  rfl

/-- The names of all groups are bound around the body and around the values that use them. -/
theorem Expr.mem_free_nest {body : Expr}
    (hordered : groups.Pairwise fun group later => ∀ user ∈ group, ∀ binder ∈ later,
      ∀ name ∈ user.2.free, name ∉ binder.1.boundNames)
    (h : name ∈ (nest (groups.map groupBinding) body).free) :
    (name ∈ body.free ∨ ∃ binding ∈ groups.flatten, name ∈ binding.2.free)
      ∧ ∀ binding ∈ groups.flatten, name ∉ binding.1.boundNames := by
  induction groups with
  | nil => exact ⟨.inl h, List.forall_mem_nil _⟩
  | cons group groups ih =>
    obtain ⟨hgroup, hgroups⟩ := List.pairwise_cons.1 hordered
    rw [List.map_cons, nest_cons] at h
    obtain ⟨hfree, hbound⟩ := mem_free_letIn_value.1 h
    rw [mem_boundNames_groupBinding] at hbound
    simp only [List.flatten_cons, List.mem_append, or_imp, forall_and]
    rcases hfree with hfree | hfree
    · obtain ⟨user, huser, hfree⟩ := mem_free_groupBinding.1 hfree
      refine ⟨.inr ⟨user, .inl huser, hfree⟩, fun binding hbinding hname => ?_, ?_⟩
      · exact hbound ⟨binding, hbinding, hname⟩
      · intro binder hbinder
        obtain ⟨later, hlater, hbinder⟩ := List.mem_flatten.1 hbinder
        exact hgroup later hlater user huser binder hbinder name hfree
    · obtain ⟨hfree, hrest⟩ := ih hgroups hfree
      refine ⟨hfree.imp_right ?_, fun binding hbinding hname => ?_, hrest⟩
      · rintro ⟨binding, hbinding, hfree⟩
        exact ⟨binding, .inr hbinding, hfree⟩
      · exact hbound ⟨binding, hbinding, hname⟩

/-! ## Numbered declarations -/

/-- Whether numbered declarations are in groups of numbers, and use only names that are bound in
their own group or in one before it. -/
structure Numbering (numbers : List (List Nat)) (left : List ((Pattern × Expr) × Nat)) : Prop where
  cover : ∀ binding ∈ left, ∃ group ∈ numbers, binding.2 ∈ group
  order : ∀ before group after, numbers = before ++ group :: after →
    ∀ user ∈ left, user.2 ∈ group → ∀ binder ∈ left, ∀ name ∈ user.1.2.free,
    name ∈ binder.1.1.boundNames → ∃ group' ∈ before ++ [group], binder.2 ∈ group'

section Numbering

variable {first : List Nat} {numbers : List (List Nat)} {left : List ((Pattern × Expr) × Nat)}

/-- The declarations outside the first group are in the groups behind it. -/
theorem Numbering.tail (h : Numbering (first :: numbers) left) :
    Numbering numbers (left.filter fun binding => !first.contains binding.2) := by
  have hrest {binding : (Pattern × Expr) × Nat}
      (hbinding : binding ∈ left.filter fun binding => !first.contains binding.2) :
      binding ∈ left ∧ binding.2 ∉ first := by
    rwa [List.mem_filter, Bool.not_eq_true', ← Bool.not_eq_true, List.contains_iff_mem]
      at hbinding
  refine ⟨fun binding hbinding => ?_, ?_⟩
  · obtain ⟨hleft, hnot⟩ := hrest hbinding
    obtain ⟨group, hgroup, hmem⟩ := h.cover binding hleft
    rcases List.mem_cons.1 hgroup with rfl | hgroup
    · exact absurd hmem hnot
    · exact ⟨group, hgroup, hmem⟩
  · rintro before group after rfl user huser hmem binder hbinder name hfree hbound
    obtain ⟨hbinder, hnot⟩ := hrest hbinder
    obtain ⟨other, hother, hin⟩ := h.order (first :: before) group after rfl user
      (hrest huser).1 hmem binder hbinder name hfree hbound
    rcases List.mem_cons.1 hother with rfl | hother
    · exact absurd hin hnot
    · exact ⟨other, hother, hin⟩

/-- The declarations of the first group use no name that is bound outside it. -/
theorem Numbering.not_mem_boundNames (h : Numbering (first :: numbers) left)
    {user binder : (Pattern × Expr) × Nat} (huser : user ∈ left) (hin : user.2 ∈ first)
    (hbinder : binder ∈ left) (hnot : binder.2 ∉ first) (hfree : name ∈ user.1.2.free) :
    name ∉ binder.1.1.boundNames := by
  intro hbound
  obtain ⟨other, hother, hmem⟩ :=
    h.order [] first numbers rfl user huser hin binder hbinder name hfree hbound
  rw [List.nil_append, List.mem_singleton] at hother
  exact hnot (hother ▸ hmem)

/-- Numbered declarations make a nest of their groups. The members of a group are declarations whose
numbers are grouped. -/
theorem Numbering.exists_nestBlocks_eq (h : Numbering numbers left) :
    ∃ groups, Grouping (left.map Prod.fst) groups
      ∧ (∀ group ∈ groups, ∃ numbered ∈ numbers, ∀ binding ∈ group,
        ∃ number ∈ numbered, (binding, number) ∈ left)
      ∧ ∀ body, nestBlocks body numbers left = nest (groups.map groupBinding) body := by
  induction numbers generalizing left with
  | nil =>
    obtain rfl : left = [] := List.eq_nil_iff_forall_not_mem.2 fun binding hbinding => by
      obtain ⟨_, hgroup, -⟩ := h.cover binding hbinding
      contradiction
    exact ⟨[], ⟨List.forall_mem_nil _, .nil, .nil⟩, List.forall_mem_nil _, fun body => rfl⟩
  | cons first numbers ih =>
    obtain ⟨groups, hgroups, hnumbered, heq⟩ := ih h.tail
    simp only [nestBlocks, List.partition_eq_filter_filter, Function.comp_def, heq]
    have hperm := List.filter_append_perm (fun binding => first.contains binding.2) left
    have hmember {binding : (Pattern × Expr) × Nat}
        (hbinding : binding ∈ left.filter fun binding => first.contains binding.2) :
        binding ∈ left ∧ binding.2 ∈ first := by
      rwa [List.mem_filter, List.contains_iff_mem] at hbinding
    generalize left.filter (fun binding => first.contains binding.2) = members at hperm hmember
    have hrest {binding : (Pattern × Expr) × Nat}
        (hbinding : binding ∈ left.filter fun binding => !first.contains binding.2) :
        binding ∈ left ∧ binding.2 ∉ first := by
      rwa [List.mem_filter, Bool.not_eq_true', ← Bool.not_eq_true, List.contains_iff_mem]
        at hbinding
    generalize left.filter (fun binding => !first.contains binding.2) = rest at *
    have hnumbered (group : List (Pattern × Expr)) (hgroup : group ∈ groups) :
        ∃ numbered ∈ first :: numbers, ∀ binding ∈ group,
          ∃ number ∈ numbered, (binding, number) ∈ left := by
      obtain ⟨numbered, hmem, hall⟩ := hnumbered group hgroup
      refine ⟨numbered, List.mem_cons_of_mem _ hmem, fun binding hbinding => ?_⟩
      obtain ⟨number, hnumber, hrestmem⟩ := hall binding hbinding
      exact ⟨number, hnumber, (hrest hrestmem).1⟩
    -- a group of numbers without declarations leaves no block
    by_cases hempty : members.isEmpty = true
    · rw [List.isEmpty_iff.1 hempty, List.nil_append] at hperm
      exact ⟨groups, hgroups.of_perm (hperm.map _), hnumbered, fun body => if_pos hempty⟩
    · have hfirst : ∀ binding ∈ members.map Prod.fst,
          ∃ number ∈ first, (binding, number) ∈ left := by
        rw [List.forall_mem_map]
        exact fun binding hbinding => ⟨binding.2, (hmember hbinding).2, (hmember hbinding).1⟩
      have hordered : ∀ user ∈ members.map Prod.fst, ∀ binder ∈ rest.map Prod.fst,
          ∀ name ∈ user.2.free, name ∉ binder.1.boundNames := by
        simp only [List.forall_mem_map]
        intro user huser binder hbinder name hfree
        exact h.not_mem_boundNames (hmember huser).1 (hmember huser).2 (hrest hbinder).1
          (hrest hbinder).2 hfree
      have hnonempty : members.map Prod.fst ≠ [] := fun hnil => hempty (by
        rw [List.map_eq_nil_iff.1 hnil, List.isEmpty_nil])
      refine ⟨members.map Prod.fst :: groups, ?_,
        List.forall_mem_cons.2 ⟨⟨first, List.mem_cons_self, hfirst⟩, hnumbered⟩, fun body => ?_⟩
      · refine (hgroups.cons hnonempty hordered).of_perm ?_
        rw [← List.map_append]
        exact hperm.map _
      · rw [if_neg hempty, groupDecl_eq, List.map_cons, nest_cons]

end Numbering

/-! ## Blocks of values -/

/-- A declaration depends on those that bind a name that it uses. -/
theorem dependsOn_ofBindings {user binder : Pattern × Expr} {i j : Nat}
    (huser : bindings[i]? = some user) (hbinder : bindings[j]? = some binder)
    (hfree : name ∈ user.2.free) (hbound : name ∈ binder.1.boundNames) :
    (DependencyGraph.ofBindings bindings).dependsOn i j = true := by
  refine DependencyGraph.dependsOn_ofRelation.2 ⟨(List.getElem?_eq_some_iff.1 huser).1,
    (List.getElem?_eq_some_iff.1 hbinder).1, .inr ?_⟩
  rw [List.getElem?_map, List.getElem?_map, huser, hbinder]
  simp only [Option.map_some, Option.getD_some, List.any_eq_true, List.contains_iff_mem]
  exact ⟨name, hbound, hfree⟩

/-- Whether a declaration uses a name that another one of the same block binds. -/
def Uses (bindings : List (Pattern × Expr)) (user binder : Pattern × Expr) : Prop :=
  user ∈ bindings ∧ binder ∈ bindings ∧ ∃ name ∈ binder.1.boundNames, name ∈ user.2.free

/-- The edges between different declarations are uses. -/
theorem eq_or_uses_of_dependsOn {user : Pattern × Expr} {i j : Nat}
    (huser : bindings[i]? = some user)
    (h : (DependencyGraph.ofBindings bindings).dependsOn i j = true) :
    ∃ binder, bindings[j]? = some binder ∧ (user = binder ∨ Uses bindings user binder) := by
  obtain ⟨-, hj, hrelated⟩ := DependencyGraph.dependsOn_ofRelation.1 h
  refine ⟨bindings[j], List.getElem?_eq_getElem hj, ?_⟩
  rcases hrelated with rfl | hrelated
  · rw [List.getElem?_eq_getElem hj] at huser
    exact .inl (Option.some.inj huser).symm
  · refine .inr ⟨List.mem_of_getElem? huser, List.getElem_mem hj, ?_⟩
    rw [List.getElem?_map, List.getElem?_map, huser, List.getElem?_eq_getElem hj] at hrelated
    simpa only [Option.map_some, Option.getD_some, List.any_eq_true, List.contains_iff_mem]
      using hrelated

/-- What is reached in the graph is used, directly or through others. -/
theorem reflTransGen_uses_of_reaches {user : Pattern × Expr} {i j : Nat}
    (huser : bindings[i]? = some user) (h : (DependencyGraph.ofBindings bindings).Reaches i j) :
    ∃ binder, bindings[j]? = some binder ∧ ReflTransGen (Uses bindings) user binder := by
  induction h with
  | refl => exact ⟨user, huser, .refl⟩
  | tail _ hstep ih =>
    obtain ⟨binder, hbinder, hreached⟩ := ih
    obtain ⟨next, hnext, rfl | huses⟩ := eq_or_uses_of_dependsOn hbinder hstep
    · exact ⟨binder, hnext, hreached⟩
    · exact ⟨next, hnext, hreached.tail huses⟩

/-- The declarations of values by some bindings. -/
def valueDecls (bindings : List (Pattern × Expr)) : List (Decl Expr) :=
  bindings.map fun binding => .value binding.1 binding.2

theorem filterMap_valueDecls (bindings : List (Pattern × Expr)) :
    (valueDecls bindings).filterMap Decl.value? = bindings := by
  simp [valueDecls, List.filterMap_map, Function.comp_def, Decl.value?]

/-- A block of values is the block of its bindings. -/
theorem valueDecls_filterMap {decls : List (Decl Expr)}
    (h : ∀ decl ∈ decls, decl.value?.isSome = true) :
    valueDecls (decls.filterMap Decl.value?) = decls := by
  induction decls with
  | nil => rfl
  | cons decl decls ih =>
    obtain ⟨hdecl, hdecls⟩ := List.forall_mem_cons.1 h
    cases decl with
    | value pattern value => exact congrArg (_ :: ·) (ih hdecls)
    | clause _ _ _ | data _ => contradiction

/-- Only a block of several values is nested. -/
theorem exists_of_nestGroups?_eq_some {e e' : Expr} (h : nestGroups? e = some e') :
    ∃ bindings body, e = letIn (valueDecls bindings) body ∧ 2 ≤ bindings.length := by
  unfold nestGroups? at h
  split at h
  · next decls body =>
    split at h
    · next hvalues =>
      rw [Bool.and_eq_true, decide_eq_true_eq, List.all_eq_true] at hvalues
      have hdecls := valueDecls_filterMap hvalues.2
      refine ⟨decls.filterMap Decl.value?, body, by rw [hdecls], ?_⟩
      have hlength := congrArg List.length hdecls
      rw [valueDecls, List.length_map] at hlength
      exact hlength ▸ hvalues.1
    · contradiction
  · contradiction

/-- A block of several values becomes a nest of its groups. The members of a group use each other,
directly or through others. -/
theorem exists_nestGroups?_eq (h : 2 ≤ bindings.length) :
    ∃ groups, Grouping bindings groups
      ∧ (∀ group ∈ groups, ∀ user ∈ group, ∀ binder ∈ group,
        ReflTransGen (Uses bindings) user binder)
      ∧ ∀ body, nestGroups? (letIn (valueDecls bindings) body)
        = some (nest (groups.map groupBinding) body) := by
  have hgraph : (DependencyGraph.ofBindings bindings).WellFormed :=
    DependencyGraph.wellFormed_ofRelation _ _
  -- the graph numbers the declarations by their place in the block
  obtain ⟨groups, hgroups, hnumbered, heq⟩ :
      ∃ groups, Grouping (bindings.zipIdx.map Prod.fst) groups
      ∧ (∀ group ∈ groups, ∃ numbered ∈ (DependencyGraph.ofBindings bindings).groups,
        ∀ binding ∈ group, ∃ number ∈ numbered, (binding, number) ∈ bindings.zipIdx)
      ∧ ∀ body, nestBlocks body (DependencyGraph.ofBindings bindings).groups bindings.zipIdx
        = nest (groups.map groupBinding) body := by
    refine Numbering.exists_nestBlocks_eq ⟨?_, ?_⟩
    · intro binding hbinding
      have hlt : binding.2 < bindings.length := List.snd_lt_of_mem_zipIdx hbinding
      exact DependencyGraph.exists_mem_groups hgraph (by
        rwa [DependencyGraph.ofBindings, DependencyGraph.size_ofRelation])
    · intro before group after hsplit user huser hmem binder hbinder name hfree hbound
      rw [List.mem_zipIdx_iff_getElem?] at huser hbinder
      exact DependencyGraph.mem_of_groups_eq hgraph hsplit hmem
        (dependsOn_ofBindings huser hbinder hfree hbound)
  rw [List.zipIdx_map_fst] at hgroups
  refine ⟨groups, hgroups, fun group hgroup user huser binder hbinder => ?_, fun body => ?_⟩
  · obtain ⟨numbered, hclique, hall⟩ := hnumbered group hgroup
    obtain ⟨i, hi, huser⟩ := hall user huser
    obtain ⟨j, hj, hbinder⟩ := hall binder hbinder
    rw [List.mem_zipIdx_iff_getElem?] at huser hbinder
    -- members of a group reach each other in the graph, and its edges are uses
    obtain ⟨hreaches, -⟩ := DependencyGraph.mutual_of_mem_groups hgraph hclique hi hj
    obtain ⟨other, hother, huses⟩ := reflTransGen_uses_of_reaches huser hreaches
    obtain rfl := Option.some.inj (hother.symm.trans hbinder)
    exact huses
  have hall : ((valueDecls bindings).all fun decl => decl.value?.isSome) = true := by
    rw [valueDecls, List.all_map, List.all_eq_true]
    exact fun _ _ => rfl
  rw [nestGroups?, hall, Bool.and_true, valueDecls, List.length_map, if_pos (decide_eq_true h),
    ← valueDecls, filterMap_valueDecls]
  exact congrArg some (heq body)

end Clausal
