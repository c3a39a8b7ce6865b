import Clausal.Proofs.Dependency.Cliques

/-!
# The order of dependency groups

Nodes are peeled off a graph one at a time, each when every node that depends on it is gone. In a
graph without cycles this takes all nodes, and lists each behind those that it depends on. The
graph of the cliques has no cycles.

## Main results

* `DependencyGraph.Peeled.step`: what the peeling of a node preserves;
* `DependencyGraph.mem_dependenciesFirst_iff`, `DependencyGraph.mem_of_dependenciesFirst_eq`: all
  nodes are listed, each behind those that it depends on;
* `DependencyGraph.mem_of_groups_eq`: no group depends on a later one.
-/

namespace Clausal.DependencyGraph

variable {g : DependencyGraph} {i j : Nat}

/-! ## Peeling -/

/-- How many of the nodes that are left depend on a node. -/
def left (g : DependencyGraph) (taken : List Nat) (i : Nat) : Nat :=
  (List.range g.size).countP fun j => j != i && g.dependsOn j i && !taken.contains j

/-- What holds while nodes are peeled off. -/
structure Peeled (g : DependencyGraph) (ready waiting taken : List Nat) : Prop where
  lt : ∀ i ∈ taken, i < g.size
  nodup : taken.Nodup
  /-- Whatever depends on a node was taken before it. -/
  before : ∀ later i earlier, taken = later ++ i :: earlier →
    ∀ j, j ≠ i → g.dependsOn j i = true → j ∈ earlier
  length_waiting : waiting.length = g.size
  /-- The nodes left that depend on a node are counted. -/
  waiting_eq : ∀ i < g.size, waiting[i]?.getD 0 = g.left taken i
  nodup_ready : ready.Nodup
  /-- The nodes on which no other node left depends are ready. -/
  mem_ready_iff : ∀ i, i ∈ ready
    ↔ i < g.size ∧ i ∉ taken ∧ ∀ j, j ≠ i → g.dependsOn j i = true → j ∈ taken

theorem left_eq_zero_iff (hg : g.WellFormed) (taken : List Nat) :
    g.left taken i = 0 ↔ ∀ j, j ≠ i → g.dependsOn j i = true → j ∈ taken := by
  rw [left, List.countP_eq_zero]
  simp only [List.mem_range, Bool.and_eq_true, bne_iff_ne, Bool.not_eq_true',
    List.contains_eq_mem, decide_eq_false_iff_not, not_and, not_not, and_imp]
  exact ⟨fun h j hne hj => h j (hg.lt_of_dependsOn hj).1 hne hj, fun h j _ => h j⟩

/-- One node less is counted for what the taken node depends on. -/
theorem left_cons {next : Nat} {taken : List Nat} (hnext : next < g.size) (hnot : next ∉ taken)
    (i : Nat) :
    g.left (next :: taken) i = g.left taken i
      - if next != i && g.dependsOn next i then 1 else 0 := by
  have herase := List.countP_erase (fun j => j != i && g.dependsOn j i && !taken.contains j)
    (List.range g.size) next
  rw [List.nodup_range.erase_eq_filter, List.countP_filter] at herase
  rw [left, left]
  refine Eq.trans (congrFun (congrArg List.countP (funext fun j => ?_)) _) (herase.trans ?_)
  · simp only [List.contains_cons, Bool.not_or, bne]
    cases j == next <;> simp
  · simp [hnext, hnot]

theorem mem_targets_iff {node : Nat} :
    i ∈ g.targets node ↔ i < g.size ∧ node ≠ i ∧ g.dependsOn node i = true := by
  rw [targets, List.mem_filter, List.mem_range, Bool.and_eq_true, bne_iff_ne, ne_comm]

/-- At first no node is taken. -/
theorem peeled_initial (hg : g.WellFormed) :
    g.Peeled ((List.range g.size).filter fun node => g.incoming node == 0)
      ((List.range g.size).map g.incoming) [] := by
  have hleft (i : Nat) : g.incoming i = g.left [] i := by
    rw [incoming, left]
    simp
  refine ⟨nofun, .nil, fun later i earlier h => by simp at h, by simp, fun i hi => ?_,
    List.nodup_range.filter _, fun i => ?_⟩
  · rw [List.getElem?_map, List.getElem?_range hi]
    exact hleft i
  · rw [List.mem_filter, List.mem_range, beq_iff_eq, hleft, left_eq_zero_iff hg]
    simp

/-- A node that is ready is taken, and the nodes that are ready then are found. -/
theorem Peeled.step (hg : g.WellFormed) {next : Nat} {ready waiting taken waiting' : List Nat}
    (h : g.Peeled (next :: ready) waiting taken)
    (hwaiting : waiting' = waiting.mapIdx fun node n =>
      if (g.targets next).contains node then n - 1 else n) :
    g.Peeled
      (ready.merge ((g.targets next).filter fun node => waiting'[node]?.getD 0 == 0))
      waiting' (next :: taken) := by
  obtain ⟨hlt, hnot, hdependents⟩ := (h.mem_ready_iff next).1 List.mem_cons_self
  obtain ⟨hnext, hready⟩ := List.nodup_cons.1 h.nodup_ready
  have hcount (i : Nat) (hi : i < g.size) : waiting'[i]?.getD 0 = g.left (next :: taken) i := by
    have hn := h.waiting_eq i hi
    have hi' : i < waiting.length := h.length_waiting.symm ▸ hi
    rw [List.getElem?_eq_getElem hi', Option.getD_some] at hn
    rw [hwaiting, List.getElem?_mapIdx, List.getElem?_eq_getElem hi', Option.map_some,
      Option.getD_some, hn, left_cons hlt hnot]
    have hmem : (g.targets next).contains i = (next != i && g.dependsOn next i) := by
      rw [Bool.eq_iff_iff, List.contains_iff_mem, mem_targets_iff, Bool.and_eq_true, bne_iff_ne]
      exact and_iff_right hi
    rw [hmem]
    split <;> rfl
  -- no node was taken before one that depends on it
  have hleft {i : Nat} (hi : g.dependsOn next i = true) (hne : next ≠ i) : i ∉ taken := by
    intro hmem
    obtain ⟨later, earlier, rfl⟩ := List.append_of_mem hmem
    exact hnot (List.mem_append_right _ (List.mem_cons_of_mem _ (h.before _ _ _ rfl next hne hi)))
  have hreleased (i : Nat) :
      (i ∈ (g.targets next).filter fun node => waiting'[node]?.getD 0 == 0)
        ↔ i < g.size ∧ next ≠ i ∧ g.dependsOn next i = true
          ∧ ∀ j, j ≠ i → g.dependsOn j i = true → j ∈ next :: taken := by
    rw [List.mem_filter, mem_targets_iff, beq_iff_eq]
    constructor
    · rintro ⟨⟨hi, hne, hdep⟩, hzero⟩
      rw [hcount i hi, left_eq_zero_iff hg] at hzero
      exact ⟨hi, hne, hdep, hzero⟩
    · rintro ⟨hi, hne, hdep, hall⟩
      refine ⟨⟨hi, hne, hdep⟩, ?_⟩
      rw [hcount i hi, left_eq_zero_iff hg]
      exact hall
  refine ⟨?_, List.nodup_cons.2 ⟨hnot, h.nodup⟩, ?_, ?_, hcount, ?_, fun i => ?_⟩
  · exact List.forall_mem_cons.2 ⟨hlt, h.lt⟩
  · rintro (_ | ⟨_, later⟩) i earlier heq
    · obtain ⟨rfl, rfl⟩ := List.cons.inj heq
      exact hdependents
    · exact h.before later i earlier (List.cons.inj heq).2
  · rw [hwaiting, List.length_mapIdx, h.length_waiting]
  · refine (List.merge_perm_append _).nodup_iff.2 (List.nodup_append.2 ⟨hready, ?_, ?_⟩)
    · exact (List.nodup_range.filter _).filter _
    · rintro i hi _ hj rfl
      obtain ⟨-, hne, hdep, -⟩ := (hreleased i).1 hj
      have hdependents' := ((h.mem_ready_iff i).1 (List.mem_cons_of_mem _ hi)).2.2
      exact hnot (hdependents' next hne hdep)
  · rw [List.mem_merge, hreleased, List.mem_cons, not_or]
    constructor
    · rintro (hi | ⟨hi, hne, hdep, hall⟩)
      · obtain ⟨hlt, htaken, hall⟩ := (h.mem_ready_iff i).1 (List.mem_cons_of_mem _ hi)
        refine ⟨hlt, ⟨?_, htaken⟩, fun j hne hj => List.mem_cons_of_mem _ (hall j hne hj)⟩
        rintro rfl
        exact hnext hi
      · exact ⟨hi, ⟨hne.symm, hleft hdep hne⟩, hall⟩
    · rintro ⟨hi, ⟨hne, htaken⟩, hall⟩
      by_cases hdep : g.dependsOn next i = true
      · exact .inr ⟨hi, Ne.symm hne, hdep, hall⟩
      · refine .inl ((List.mem_cons.1 ((h.mem_ready_iff i).2 ⟨hi, htaken, ?_⟩)).resolve_left hne)
        intro j hji hj
        refine (List.mem_cons.1 (hall j hji hj)).resolve_left ?_
        rintro rfl
        exact hdep hj

/-! ## Graphs without cycles -/

/-- A graph in which no two nodes reach each other. -/
def Acyclic (g : DependencyGraph) : Prop := ∀ i j, g.Mutual i j → i = j

/-- In a graph without cycles some node is ready as long as one is left. -/
theorem Peeled.ready_ne_nil (hg : g.WellFormed) (hacyclic : g.Acyclic)
    {ready waiting taken : List Nat} (h : g.Peeled ready waiting taken) (hi : i < g.size)
    (htaken : i ∉ taken) : ready ≠ [] := by
  -- a node left that no other node left reaches
  let r : Fin g.size → Fin g.size → Prop := fun a b => g.Reaches a b ∧ a ≠ b
  have : IsTrans (Fin g.size) r := by
    refine ⟨fun a b c hab hbc => ⟨hab.1.trans hbc.1, ?_⟩⟩
    rintro rfl
    exact hab.2 (Fin.ext (hacyclic _ _ ⟨hab.1, hbc.1⟩))
  have : Std.Irrefl r := ⟨fun a h => h.2 rfl⟩
  obtain ⟨top, htop, hmin⟩ := (Finite.wellFounded_of_trans_of_irrefl r).has_min
    {a | a.val ∉ taken} ⟨⟨i, hi⟩, htaken⟩
  refine List.ne_nil_of_mem (a := top.val) ((h.mem_ready_iff top).2 ⟨top.isLt, htop, ?_⟩)
  intro j hne hj
  by_contra hleft
  refine hmin ⟨j, (hg.lt_of_dependsOn hj).1⟩ hleft ⟨.single hj, ?_⟩
  exact fun heq => hne (congrArg Fin.val heq)

/-- All nodes are peeled off a graph without cycles. -/
theorem Peeled.peel (hg : g.WellFormed) (hacyclic : g.Acyclic) {count : Nat}
    {ready waiting taken : List Nat} (h : g.Peeled ready waiting taken)
    (hcount : count + taken.length = g.size) :
    ∃ ready' waiting', g.Peeled ready' waiting' (g.peel count ready waiting taken)
      ∧ ∀ i < g.size, i ∈ g.peel count ready waiting taken := by
  induction count generalizing ready waiting taken with
  | zero =>
    refine ⟨ready, waiting, h, fun i hi => ?_⟩
    -- as many different nodes are taken as there are
    have hsubset : taken ⊆ List.range g.size := fun i hi => List.mem_range.2 (h.lt i hi)
    have hperm : taken.Perm (List.range g.size) := by
      refine (List.subperm_of_subset h.nodup hsubset).perm_of_length_le ?_
      rw [List.length_range]
      omega
    exact hperm.mem_iff.2 (List.mem_range.2 hi)
  | succ count ih =>
    cases ready with
    | nil =>
      refine ⟨[], waiting, h, fun i hi => ?_⟩
      by_contra hleft
      exact h.ready_ne_nil hg hacyclic hi hleft rfl
    | cons next ready =>
      rw [DependencyGraph.peel]
      refine ih (h.step hg rfl) ?_
      rw [List.length_cons]
      omega

section Order

variable (hg : g.WellFormed) (hacyclic : g.Acyclic)

include hg hacyclic

theorem exists_peeled :
    ∃ ready waiting, g.Peeled ready waiting g.dependenciesFirst
      ∧ ∀ i < g.size, i ∈ g.dependenciesFirst :=
  (peeled_initial hg).peel hg hacyclic (Nat.add_zero g.size)

/-- Every node is listed. -/
theorem mem_dependenciesFirst_iff : i ∈ g.dependenciesFirst ↔ i < g.size := by
  obtain ⟨_, _, hpeeled, hall⟩ := exists_peeled hg hacyclic
  exact ⟨hpeeled.lt i, hall i⟩

/-- A node is listed behind those that it depends on. -/
theorem mem_of_dependenciesFirst_eq {first rest : List Nat}
    (h : g.dependenciesFirst = first ++ i :: rest) (hne : i ≠ j)
    (hdep : g.dependsOn i j = true) : j ∈ first := by
  obtain ⟨_, _, hpeeled, hall⟩ := exists_peeled hg hacyclic
  have hj := hall j (hg.lt_of_dependsOn hdep).2
  rw [h] at hj
  rcases List.mem_append.1 hj with hj | hj
  · exact hj
  · -- otherwise the node would be listed again behind the one that it depends on
    obtain ⟨between, after, rfl⟩ :=
      List.append_of_mem ((List.mem_cons.1 hj).resolve_left hne.symm)
    have hi : i ∈ after :=
      hpeeled.before (first ++ i :: between) j after (by rw [h]; simp) i hne hdep
    have hnodup := hpeeled.nodup
    rw [h] at hnodup
    have hnot := (List.nodup_cons.1 (List.nodup_append.1 hnodup).2.1).1
    exact absurd (List.mem_append_right _ (List.mem_cons_of_mem _ hi)) hnot

end Order

/-! ## The graph of the cliques -/

theorem wellFormed_quotient (g : DependencyGraph) (cliques : List (List Nat)) :
    (g.quotient cliques).WellFormed :=
  wellFormed_ofRelation _ _

theorem dependsOn_quotient_iff {cliques : List (List Nat)} {a b : Nat} :
    (g.quotient cliques).dependsOn a b = true
      ↔ a < cliques.length ∧ b < cliques.length
        ∧ (a = b ∨ ∃ i ∈ cliques[a]?.getD [], ∃ j ∈ cliques[b]?.getD [],
          g.dependsOn i j = true) := by
  rw [quotient, dependsOn_ofRelation]
  simp only [List.any_eq_true]

/-- The members of a class reach those of the classes that it reaches. -/
theorem Partition.reaches {count : Nat} {cliques : List (List Nat)}
    (h : g.Partition count cliques) {a b : Nat} (hab : (g.quotient cliques).Reaches a b)
    (hi : i ∈ cliques[a]?.getD []) (hj : j ∈ cliques[b]?.getD []) : g.Reaches i j := by
  have hclique {a i j : Nat} (hi : i ∈ cliques[a]?.getD []) (hj : j ∈ cliques[a]?.getD []) :
      g.Reaches i j := by
    cases hget : cliques[a]? with
    | none =>
      rw [hget] at hi
      contradiction
    | some clique =>
      rw [hget] at hi hj
      exact (h.connected clique (List.mem_of_getElem? hget) i hi j hj).1
  induction hab generalizing j with
  | refl => exact hclique hi hj
  | tail _ hstep ih =>
    obtain ⟨-, -, rfl | ⟨k, hk, l, hl, hkl⟩⟩ := dependsOn_quotient_iff.1 hstep
    · exact ih hj
    · exact ((ih hk).tail hkl).trans (hclique hl hj)

/-- The graph of the classes has no cycles. -/
theorem Partition.acyclic {count : Nat} {cliques : List (List Nat)}
    (h : g.Partition count cliques) : (g.quotient cliques).Acyclic := by
  intro a b hab
  by_contra hne
  -- a class that reaches another has a member, and so is one of those listed
  have hlt {a b : Nat} (hab : (g.quotient cliques).Reaches a b) (hne : a ≠ b) :
      a < cliques.length := by
    rcases hab.cases_head with rfl | ⟨_, hstep, -⟩
    · exact absurd rfl hne
    · exact (dependsOn_quotient_iff.1 hstep).1
  have ha := hlt hab.1 hne
  have hb := hlt hab.2 (Ne.symm hne)
  obtain ⟨i, hi⟩ := List.exists_mem_of_ne_nil _ (h.ne_nil _ (List.getElem_mem ha))
  obtain ⟨j, hj⟩ := List.exists_mem_of_ne_nil _ (h.ne_nil _ (List.getElem_mem hb))
  have hi' : i ∈ cliques[a]?.getD [] := by rwa [List.getElem?_eq_getElem ha]
  have hj' : j ∈ cliques[b]?.getD [] := by rwa [List.getElem?_eq_getElem hb]
  have hij : g.Mutual i j := ⟨h.reaches hab.1 hi' hj', h.reaches hab.2 hj' hi'⟩
  exact hne (h.index_eq hi hj hij)

/-! ## Groups -/

section Groups

variable (hg : g.WellFormed)

include hg

/-- Every node is in a group. -/
theorem exists_mem_groups (hi : i < g.size) : ∃ group ∈ g.groups, i ∈ group := by
  have hpartition := partition_cliques hg
  obtain ⟨clique, hclique, hi⟩ := (hpartition.mem_iff i).2 hi
  obtain ⟨a, ha, rfl⟩ := List.mem_iff_getElem.1 hclique
  refine ⟨_, List.mem_filterMap.2 ⟨a, ?_, List.getElem?_eq_getElem ha⟩, hi⟩
  rw [mem_dependenciesFirst_iff (wellFormed_quotient _ _) hpartition.acyclic, quotient,
    size_ofRelation]
  exact ha

/-- The members of a group reach each other. -/
theorem mutual_of_mem_groups {group : List Nat} (hgroup : group ∈ g.groups) (hi : i ∈ group)
    (hj : j ∈ group) : g.Mutual i j := by
  obtain ⟨a, -, ha⟩ := List.mem_filterMap.1 hgroup
  exact (partition_cliques hg).connected group (List.mem_of_getElem? ha) i hi j hj

/-- What a member of a group depends on is in the group or in one before it. -/
theorem mem_of_groups_eq {before after : List (List Nat)} {group : List Nat}
    (h : g.groups = before ++ group :: after) (hi : i ∈ group) (hdep : g.dependsOn i j = true) :
    ∃ group' ∈ before ++ [group], j ∈ group' := by
  have hpartition := partition_cliques hg
  obtain ⟨first, rest, hfirst, hbefore, hrest⟩ := List.filterMap_eq_append_iff.1 h
  obtain ⟨skipped, a, rest', rfl, hskipped, ha, -⟩ := List.filterMap_eq_cons_iff.1 hrest
  obtain ⟨clique, hclique, hj⟩ := (hpartition.mem_iff j).2 (hg.lt_of_dependsOn hdep).2
  obtain ⟨b, hb, rfl⟩ := List.mem_iff_getElem.1 hclique
  by_cases hab : a = b
  · subst hab
    rw [List.getElem?_eq_getElem hb, Option.some.injEq] at ha
    exact ⟨group, by simp, ha ▸ hj⟩
  · have hquotient : (g.quotient g.cliques).dependsOn a b = true := by
      refine dependsOn_quotient_iff.2 ⟨(List.getElem?_eq_some_iff.1 ha).1, hb, .inr ⟨i, ?_, j, ?_,
        hdep⟩⟩
      · rwa [ha]
      · rwa [List.getElem?_eq_getElem hb]
    have horder : (g.quotient g.cliques).dependenciesFirst = (first ++ skipped) ++ a :: rest' := by
      rw [hfirst, List.append_assoc]
    have hmem : b ∈ first ++ skipped :=
      mem_of_dependenciesFirst_eq (wellFormed_quotient _ _) hpartition.acyclic horder hab hquotient
    have hmem : b ∈ first := by
      refine (List.mem_append.1 hmem).resolve_right fun hmem => ?_
      have := hskipped b hmem
      rw [List.getElem?_eq_getElem hb] at this
      contradiction
    refine ⟨g.cliques[b], List.mem_append_left _ ?_, hj⟩
    rw [← hbefore]
    exact List.mem_filterMap.2 ⟨b, hmem, List.getElem?_eq_getElem hb⟩

end Groups

end Clausal.DependencyGraph
