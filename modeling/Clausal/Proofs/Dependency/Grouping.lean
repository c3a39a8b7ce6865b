import Clausal.Proofs.Dependency.Groups

/-!
# The groups as a whole

The groups of a dependency graph are its classes of mutual reachability, each once, in an order in
which no node reaches a node of a later group. A node joins one class, so no node is lost or
listed twice; the classes are those of the quotient graph, of which the peeling takes all.

The counters of the peeling are natural numbers, and to decrease one that is zero would leave it
as it is. `peel?` is the peeling that refuses to do so. It has the same result, since a counter is
only decreased for a node that is still counted.

## Main results

* `DependencyGraph.flatten_cliques`: each node is in one clique, and once;
* `DependencyGraph.groups_perm`: the groups are the cliques in another order;
* `DependencyGraph.pairwise_groups`: no node reaches a node of a later group;
* `DependencyGraph.groups?_eq`: no counter falls below zero.
-/

namespace Clausal.DependencyGraph

variable {g : DependencyGraph} {i j : Nat}

/-! ## Cliques -/

/-- A node joins one class and no member is lost. -/
theorem flatten_joinClique (reach : List (List Bool)) (node : Nat) (cliques : List (List Nat)) :
    (joinClique reach node cliques).flatten.Perm (cliques.flatten ++ [node]) := by
  induction cliques with
  | nil => exact .refl _
  | cons clique cliques ih =>
    rw [joinClique]
    split
    · rw [List.flatten_cons, List.flatten_cons, List.append_assoc, List.append_assoc]
      exact List.perm_append_comm.append_left clique
    · rw [List.flatten_cons, List.flatten_cons, List.append_assoc]
      exact ih.append_left clique

/-- Each node is in one clique, and once. -/
theorem flatten_cliques (g : DependencyGraph) : g.cliques.flatten.Perm (List.range g.size) := by
  have hjoined (count : Nat) : ((List.range count).foldl
      (fun cliques node => joinClique g.closure node cliques) []).flatten.Perm
        (List.range count) := by
    induction count with
    | zero => exact .refl _
    | succ count ih =>
      rw [List.range_succ, List.foldl_append]
      exact (flatten_joinClique _ _ _).trans (ih.append_right _)
  exact hjoined g.size

/-- What reaches a node of the graph, or is reached from it, is in the graph. -/
theorem WellFormed.lt_of_reaches (hg : g.WellFormed) (hi : i < g.size) (h : g.Reaches i j) :
    j < g.size := by
  induction h with
  | refl => exact hi
  | tail _ hstep _ => exact (hg.lt_of_dependsOn hstep).2

/-- The clique of a node has the nodes that it reaches and is reached by. -/
theorem mem_clique_iff (hg : g.WellFormed) {clique : List Nat} (hclique : clique ∈ g.cliques)
    (hi : i ∈ clique) : j ∈ clique ↔ g.Mutual i j := by
  have hpartition := partition_cliques hg
  refine ⟨fun hj => hpartition.connected clique hclique i hi j hj, fun hij => ?_⟩
  have hlt := hg.lt_of_reaches ((hpartition.mem_iff i).1 ⟨clique, hclique, hi⟩) hij.1
  obtain ⟨clique', hclique', hj⟩ := (hpartition.mem_iff j).2 hlt
  obtain ⟨a, ha, rfl⟩ := List.mem_iff_getElem.1 hclique
  obtain ⟨b, hb, rfl⟩ := List.mem_iff_getElem.1 hclique'
  obtain rfl : a = b := hpartition.index_eq hi hj hij
  exact hj

/-- The closure is reachability from the nodes of the graph. -/
theorem entry_closure_iff_reaches (hg : g.WellFormed) :
    entry g.closure i j = true ↔ i < g.size ∧ g.Reaches i j := by
  obtain ⟨hlength, hrows, -⟩ := foldl_closeThrough hg (Nat.le_refl g.size)
  constructor
  · intro h
    have hi : i < g.size := hlength ▸ (lt_of_entry hrows h).1
    exact ⟨hi, (entry_closure_iff hg hi).1 h⟩
  · rintro ⟨hi, h⟩
    exact (entry_closure_iff hg hi).2 h

/-! ## Groups -/

/-- All nodes of a graph without cycles are listed, each once. -/
theorem dependenciesFirst_perm (hg : g.WellFormed) (hacyclic : g.Acyclic) :
    g.dependenciesFirst.Perm (List.range g.size) := by
  obtain ⟨_, _, hpeeled, -⟩ := exists_peeled hg hacyclic
  refine (List.perm_ext_iff_of_nodup hpeeled.nodup List.nodup_range).2 fun i => ?_
  rw [mem_dependenciesFirst_iff hg hacyclic, List.mem_range]

/-- The groups are the cliques in another order. -/
theorem groups_perm (hg : g.WellFormed) : g.groups.Perm g.cliques := by
  have hperm := dependenciesFirst_perm (wellFormed_quotient g g.cliques)
    (partition_cliques hg).acyclic
  rw [quotient, size_ofRelation] at hperm
  have hall : (List.range g.cliques.length).filterMap (fun index => g.cliques[index]?)
      = g.cliques := by
    have hmap : (List.range g.cliques.length).map (fun index => g.cliques[index]?)
        = g.cliques.map some :=
      List.ext_getElem (by simp) fun index _ _ => by simp
    calc (List.range g.cliques.length).filterMap (fun index => g.cliques[index]?)
      _ = ((List.range g.cliques.length).map fun index => g.cliques[index]?).filterMap id := by
        rw [List.filterMap_map]
        rfl
      _ = g.cliques := by
        rw [hmap, List.filterMap_map]
        exact List.filterMap_some
  exact hall ▸ hperm.filterMap _

/-- What a node of some first groups reaches is in one of them too. -/
theorem exists_mem_of_reaches (hg : g.WellFormed) {before after : List (List Nat)}
    (hgroups : g.groups = before ++ after) (hi : ∃ group ∈ before, i ∈ group)
    (h : g.Reaches i j) : ∃ group ∈ before, j ∈ group := by
  induction h with
  | refl => exact hi
  | tail _ hdep ih =>
    obtain ⟨group, hgroup, hmem⟩ := ih
    obtain ⟨first, rest, rfl⟩ := List.append_of_mem hgroup
    rw [List.append_assoc, List.cons_append] at hgroups
    obtain ⟨group', hgroup', hmem'⟩ := mem_of_groups_eq hg hgroups hmem hdep
    refine ⟨group', ?_, hmem'⟩
    rcases List.mem_append.1 hgroup' with hgroup' | hgroup'
    · exact List.mem_append_left _ hgroup'
    · rw [List.mem_singleton.1 hgroup']
      exact List.mem_append_right _ List.mem_cons_self

/-- No node reaches a node of a later group. -/
theorem pairwise_groups (hg : g.WellFormed) :
    g.groups.Pairwise fun earlier later => ∀ i ∈ earlier, ∀ j ∈ later, ¬g.Reaches i j := by
  have hnodup : g.groups.flatten.Nodup :=
    ((groups_perm hg).flatten.trans g.flatten_cliques).nodup_iff.2 List.nodup_range
  rw [List.pairwise_iff_getElem]
  intro a b ha hb hab i hi j hj hij
  -- the groups up to the earlier one, in which the node that is reached would be too
  have hsplit := List.take_append_drop (a + 1) g.groups
  have hearlier : g.groups[a] ∈ g.groups.take (a + 1) :=
    List.mem_take_iff_getElem.2 ⟨a, by omega, rfl⟩
  have hlater : g.groups[b] ∈ g.groups.drop (a + 1) :=
    List.mem_drop_iff_getElem.2 ⟨b - (a + 1), by omega, by congr; omega⟩
  obtain ⟨group, hgroup, hmem⟩ :=
    exists_mem_of_reaches hg hsplit.symm ⟨_, hearlier, hi⟩ hij
  rw [← hsplit, List.flatten_append] at hnodup
  exact (List.nodup_append.1 hnodup).2.2 j (List.mem_flatten.2 ⟨group, hgroup, hmem⟩) j
    (List.mem_flatten.2 ⟨_, hlater, hj⟩) rfl

/-! ## Counters -/

/-- `peel` without a result if it would decrease a counter that is zero. -/
def peel? (g : DependencyGraph) :
    (count : Nat) → (ready waiting taken : List Nat) → Option (List Nat)
  | 0, _, _, taken => some taken
  | _ + 1, [], _, taken => some taken
  | count + 1, next :: ready, waiting, taken =>
    let targets := g.targets next
    if targets.any fun node => waiting[node]?.getD 0 == 0 then none
    else
      let waiting := waiting.mapIdx fun node n => if targets.contains node then n - 1 else n
      let released := targets.filter fun node => waiting[node]?.getD 0 == 0
      g.peel? count (ready.merge released) waiting (next :: taken)

/-- `groups` without a result if a counter would fall below zero. -/
def groups? (g : DependencyGraph) : Option (List (List Nat)) :=
  let cliques := g.cliques
  let quotient := g.quotient cliques
  let waiting := (List.range quotient.size).map quotient.incoming
  let ready := (List.range quotient.size).filter fun node => quotient.incoming node == 0
  (quotient.peel? quotient.size ready waiting []).map fun order =>
    order.filterMap fun index => cliques[index]?

/-- The counter of a node on which a ready node depends is positive: the ready node is counted. -/
theorem Peeled.waiting_pos {next : Nat} {ready waiting taken : List Nat}
    (h : g.Peeled (next :: ready) waiting taken) (hi : i ∈ g.targets next) :
    0 < waiting[i]?.getD 0 := by
  obtain ⟨hlt, hne, hdep⟩ := mem_targets_iff.1 hi
  obtain ⟨hnext, hnot, -⟩ := (h.mem_ready_iff next).1 List.mem_cons_self
  rw [h.waiting_eq i hlt, left, List.countP_pos_iff]
  exact ⟨next, List.mem_range.2 hnext, by simp [hne, hdep, hnot]⟩

/-- No counter falls below zero. -/
theorem Peeled.peel?_eq (hg : g.WellFormed) (count : Nat) {ready waiting taken : List Nat}
    (h : g.Peeled ready waiting taken) :
    g.peel? count ready waiting taken = some (g.peel count ready waiting taken) := by
  induction count generalizing ready waiting taken with
  | zero => rfl
  | succ count ih =>
    cases ready with
    | nil => rfl
    | cons next ready =>
      have hpositive : ¬(g.targets next).any (fun node => waiting[node]?.getD 0 == 0) = true := by
        rw [List.any_eq_true]
        rintro ⟨node, hnode, hzero⟩
        exact (h.waiting_pos hnode).ne' (beq_iff_eq.1 hzero)
      rw [DependencyGraph.peel?, if_neg hpositive, DependencyGraph.peel]
      exact ih (h.step hg rfl)

theorem groups?_eq (g : DependencyGraph) : g.groups? = some g.groups := by
  have hg := wellFormed_quotient g g.cliques
  rw [groups?, (peeled_initial hg).peel?_eq hg]
  rfl

/-- The closure of a graph is reachability; its cliques partition the nodes into the classes of
mutual reachability; its groups are the cliques in an order in which no node reaches a node of a
later group; and while they are put in order no counter falls below zero. -/
theorem grouping_spec (hg : g.WellFormed) :
    (∀ i j, entry g.closure i j = true ↔ i < g.size ∧ g.Reaches i j)
      ∧ g.cliques.flatten.Perm (List.range g.size)
      ∧ (∀ clique ∈ g.cliques, clique ≠ [] ∧ ∀ i ∈ clique, ∀ j, j ∈ clique ↔ g.Mutual i j)
      ∧ g.groups.Perm g.cliques
      ∧ g.groups.flatten.Perm (List.range g.size)
      ∧ (g.groups.Pairwise fun earlier later => ∀ i ∈ earlier, ∀ j ∈ later, ¬g.Reaches i j)
      ∧ g.groups? = some g.groups :=
  ⟨fun _ _ => entry_closure_iff_reaches hg, g.flatten_cliques,
    fun clique hclique => ⟨(partition_cliques hg).ne_nil clique hclique,
      fun _ hi _ => mem_clique_iff hg hclique hi⟩,
    groups_perm hg, (groups_perm hg).flatten.trans g.flatten_cliques, pairwise_groups hg,
    g.groups?_eq⟩

/-- Three nodes in a circle, on one of which a fourth depends. The circle is a group, and it comes
first. -/
theorem grouping_spec_circle :
    let g := ofEdges 4 [(0, 1), (1, 2), (2, 0), (3, 0)]
    g.WellFormed ∧ g.groups = [[0, 1, 2], [3]] ∧ g.groups? = some [[0, 1, 2], [3]]
      ∧ g.Reaches 3 1 ∧ ¬g.Reaches 0 3 := by
  intro g
  have hg : g.WellFormed := wellFormed_ofRelation _ _
  have hgroups : g.groups = [[0, 1, 2], [3]] := by cbv
  obtain ⟨hclosure, -, -, -, -, hpairwise, hchecked⟩ := grouping_spec hg
  rw [hgroups] at hchecked hpairwise
  have hreaches : g.Reaches 3 1 := ((hclosure 3 1).1 (by decide)).2
  have hnot : ¬g.Reaches 0 3 := (List.pairwise_cons.1 hpairwise).1 [3] (by decide) 0 (by decide)
    3 (by decide)
  exact ⟨hg, hgroups, hchecked, hreaches, hnot⟩

end Clausal.DependencyGraph
