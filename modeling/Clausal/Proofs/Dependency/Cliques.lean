import Clausal.Dependency
import Mathlib

/-!
# Classes of mutual dependence

The closure of a dependency graph is the reachability of one node from another: after a number of
rounds it holds the paths through as many nodes. The cliques are the classes of nodes that reach
each other, each node in one of them.

## Main results

* `DependencyGraph.entry_closure_iff`: the closure is reachability;
* `DependencyGraph.partition_cliques`: the cliques partition the nodes, and two nodes share a
  clique just if they reach each other.
-/

namespace Clausal.DependencyGraph

open Relation (ReflTransGen)

/-! ## Graphs of relations -/

/-- A graph whose rows have an entry for each node, with each node depending on itself. -/
structure WellFormed (g : DependencyGraph) : Prop where
  /-- A row has an entry for each node. -/
  length_row : ∀ row ∈ g.rows, row.length = g.size
  /-- A node depends on itself. -/
  dependsOn_self : ∀ i < g.size, g.dependsOn i i = true

variable {g : DependencyGraph} {i j k size : Nat} {rows : List (List Bool)}

/-- The entries of a row are found in the matrix. -/
theorem entry_of_getElem? {row : List Bool} (h : rows[i]? = some row) (j : Nat) :
    entry rows i j = row[j]?.getD false := by
  rw [entry, h]
  rfl

theorem lt_of_entry (hrows : ∀ row ∈ rows, row.length = size) (h : entry rows i j = true) :
    i < rows.length ∧ j < size := by
  cases hrow : rows[i]? with
  | none =>
    rw [entry, hrow] at h
    contradiction
  | some row =>
    obtain ⟨hi, rfl⟩ := List.getElem?_eq_some_iff.1 hrow
    rw [entry_of_getElem? hrow] at h
    refine ⟨hi, ?_⟩
    rw [← hrows _ (List.getElem_mem hi)]
    by_contra hj
    rw [List.getElem?_eq_none (Nat.le_of_not_lt hj)] at h
    contradiction

/-- The dependencies of the graph of a relation. -/
theorem dependsOn_ofRelation {related : Nat → Nat → Bool} :
    (ofRelation size related).dependsOn i j = true
      ↔ i < size ∧ j < size ∧ (i = j ∨ related i j = true) := by
  by_cases hi : i < size
  · by_cases hj : j < size
    · simp [dependsOn, entry, ofRelation, hi, hj]
    · simp [dependsOn, entry, ofRelation, hi, hj]
  · simp [dependsOn, entry, ofRelation, hi]

@[simp] theorem size_ofRelation (size : Nat) (related : Nat → Nat → Bool) :
    (ofRelation size related).size = size := by
  simp [DependencyGraph.size, ofRelation]

theorem wellFormed_ofRelation (size : Nat) (related : Nat → Nat → Bool) :
    (ofRelation size related).WellFormed where
  length_row row hrow := by
    rw [size_ofRelation]
    simp only [ofRelation, List.mem_map] at hrow
    obtain ⟨i, -, rfl⟩ := hrow
    rw [List.length_map, List.length_range]
  dependsOn_self i hi := by
    rw [size_ofRelation] at hi
    exact dependsOn_ofRelation.2 ⟨hi, hi, .inl rfl⟩

theorem WellFormed.lt_of_dependsOn (hg : g.WellFormed) (h : g.dependsOn i j = true) :
    i < g.size ∧ j < g.size :=
  lt_of_entry hg.length_row h

/-! ## Reachability -/

/-- Whether a node reaches another on a path whose inner nodes are below a number. -/
def Through (g : DependencyGraph) : Nat → Nat → Nat → Prop
  | 0, i, j => g.dependsOn i j = true
  | k + 1, i, j => g.Through k i j ∨ g.Through k i k ∧ g.Through k k j

/-- Paths through a node below the number are joined. -/
theorem Through.trans {m : Nat} (hm : m < k) (hi : g.Through k i m) (hj : g.Through k m j) :
    g.Through k i j := by
  induction k generalizing i m j with
  | zero => contradiction
  | succ k ih =>
    rcases Nat.lt_succ_iff_lt_or_eq.1 hm with hm | rfl
    · rcases hi with hi | ⟨hik, hkm⟩ <;> rcases hj with hj | ⟨hmk, hkj⟩
      · exact .inl (ih hm hi hj)
      · exact .inr ⟨ih hm hi hmk, hkj⟩
      · exact .inr ⟨hik, ih hm hkm hj⟩
      · exact .inr ⟨hik, hkj⟩
    -- the last node may itself be on both paths
    · have hi : g.Through m i m := hi.elim id And.left
      have hj : g.Through m m j := hj.elim id And.right
      exact .inr ⟨hi, hj⟩

theorem Through.of_dependsOn (h : g.dependsOn i j = true) (k : Nat) : g.Through k i j := by
  induction k with
  | zero => exact h
  | succ k ih => exact .inl ih

theorem Through.reflTransGen (h : g.Through k i j) :
    ReflTransGen (fun i j => g.dependsOn i j = true) i j := by
  induction k generalizing i j with
  | zero => exact .single h
  | succ k ih =>
    rcases h with h | ⟨hik, hkj⟩
    · exact ih h
    · exact (ih hik).trans (ih hkj)

/-- One round adds the paths through one node. -/
theorem entry_closeThrough (hrows : ∀ row ∈ rows, row.length = size) (hk : k < rows.length)
    (i j : Nat) :
    entry (closeThrough rows k) i j = (entry rows i j || entry rows i k && entry rows k j) := by
  have hthrough : rows[k]? = some rows[k] := List.getElem?_eq_getElem hk
  cases hrow : rows[i]? with
  | none => simp [entry, closeThrough, hrow]
  | some row =>
    have hlength : row.length = rows[k].length :=
      (hrows row (List.mem_of_getElem? hrow)).trans (hrows _ (List.getElem_mem hk)).symm
    have hclosed : (closeThrough rows k)[i]? = some (if row[k]?.getD false
        then row.zipWith (· || ·) rows[k] else row) := by
      rw [closeThrough, List.getElem?_map, hrow, hthrough]
      rfl
    rw [entry_of_getElem? hclosed, entry_of_getElem? hrow, entry_of_getElem? hrow,
      entry_of_getElem? hthrough]
    cases row[k]?.getD false with
    | false => simp
    | true =>
      by_cases hj : j < row.length
      · have hj' : j < rows[k].length := hlength ▸ hj
        simp [hj, hj']
      · have hj' : rows[k].length ≤ j := hlength ▸ Nat.le_of_not_lt hj
        simp [Nat.le_of_not_lt hj, hj']

theorem length_closeThrough (rows : List (List Bool)) (k : Nat) :
    (closeThrough rows k).length = rows.length :=
  List.length_map _

theorem length_row_closeThrough (hrows : ∀ row ∈ rows, row.length = size) (hk : k < rows.length) :
    ∀ row ∈ closeThrough rows k, row.length = size := by
  intro row hrow
  rw [closeThrough, List.getElem?_eq_getElem hk, Option.getD_some] at hrow
  obtain ⟨before, hbefore, rfl⟩ := List.mem_map.1 hrow
  split
  · rw [List.length_zipWith, hrows _ hbefore, hrows _ (List.getElem_mem hk), Nat.min_self]
  · exact hrows _ hbefore

/-- After some rounds the matrix holds the paths through as many nodes. -/
theorem foldl_closeThrough (hg : g.WellFormed) (hk : k ≤ g.size) :
    ((List.range k).foldl closeThrough g.rows).length = g.size
      ∧ (∀ row ∈ (List.range k).foldl closeThrough g.rows, row.length = g.size)
      ∧ ∀ i j, entry ((List.range k).foldl closeThrough g.rows) i j = true ↔ g.Through k i j := by
  induction k with
  | zero => exact ⟨rfl, hg.length_row, fun _ _ => Iff.rfl⟩
  | succ k ih =>
    obtain ⟨hlength, hrows, hentry⟩ := ih (Nat.le_of_succ_le hk)
    rw [List.range_succ, List.foldl_append, List.foldl_cons, List.foldl_nil]
    have hk' : k < ((List.range k).foldl closeThrough g.rows).length := hlength ▸ hk
    refine ⟨(length_closeThrough _ _).trans hlength, length_row_closeThrough hrows hk', ?_⟩
    intro i j
    rw [entry_closeThrough hrows hk', Bool.or_eq_true, Bool.and_eq_true, hentry, hentry, hentry]
    rfl

/-- One node reaches another: it depends on it, or on one that reaches it. -/
abbrev Reaches (g : DependencyGraph) : Nat → Nat → Prop :=
  ReflTransGen fun i j => g.dependsOn i j = true

/-- The closure is reachability. -/
theorem entry_closure_iff (hg : g.WellFormed) (hi : i < g.size) :
    entry g.closure i j = true ↔ g.Reaches i j := by
  obtain ⟨-, -, hentry⟩ := foldl_closeThrough hg (Nat.le_refl g.size)
  rw [closure, hentry]
  refine ⟨Through.reflTransGen, fun h => ?_⟩
  -- every node on the way to another is in the graph
  induction h with
  | refl => exact .of_dependsOn (hg.dependsOn_self i hi) _
  | tail _ hstep ih => exact .trans (hg.lt_of_dependsOn hstep).1 ih (.of_dependsOn hstep _)

/-! ## Cliques -/

/-- Two nodes that reach each other. -/
def Mutual (g : DependencyGraph) (i j : Nat) : Prop := g.Reaches i j ∧ g.Reaches j i

theorem Mutual.symm (h : g.Mutual i j) : g.Mutual j i := ⟨h.2, h.1⟩

theorem Mutual.trans (hi : g.Mutual i k) (hj : g.Mutual k j) : g.Mutual i j :=
  ⟨hi.1.trans hj.1, hj.2.trans hi.2⟩

/-- The classes of mutual reachability of the nodes below a number. -/
structure Partition (g : DependencyGraph) (count : Nat) (cliques : List (List Nat)) : Prop where
  /-- The members are the nodes below the number. -/
  mem_iff (i : Nat) : (∃ clique ∈ cliques, i ∈ clique) ↔ i < count
  /-- No class is empty. -/
  ne_nil : ∀ clique ∈ cliques, clique ≠ []
  /-- The members of a class reach each other. -/
  connected : ∀ clique ∈ cliques, ∀ i ∈ clique, ∀ j ∈ clique, g.Mutual i j
  /-- The members of different classes do not. -/
  separate : cliques.Pairwise fun clique clique' =>
    ∀ i ∈ clique, ∀ j ∈ clique', ¬g.Mutual i j

/-- Nodes that reach each other are in one class. -/
theorem Partition.index_eq {count : Nat} {cliques : List (List Nat)}
    (h : g.Partition count cliques) {a b : Nat} {ha : a < cliques.length} {hb : b < cliques.length}
    (hi : i ∈ cliques[a]) (hj : j ∈ cliques[b]) (hij : g.Mutual i j) : a = b := by
  by_contra hne
  rcases Nat.lt_or_gt_of_ne hne with hlt | hlt
  · exact List.pairwise_iff_getElem.1 h.separate a b ha hb hlt i hi j hj hij
  · exact List.pairwise_iff_getElem.1 h.separate b a hb ha hlt j hj i hi hij.symm

/-- A node joins a class whose first member it reaches and is reached by, or else makes a class of
its own. -/
theorem joinClique_cases (reach : List (List Bool)) (node : Nat) (cliques : List (List Nat)) :
    (∃ before clique after, cliques = before ++ clique :: after
        ∧ joinClique reach node cliques = before ++ (clique ++ [node]) :: after
        ∧ entry reach node (clique.headD node) = true
        ∧ entry reach (clique.headD node) node = true)
      ∨ joinClique reach node cliques = cliques ++ [[node]]
        ∧ ∀ clique ∈ cliques, ¬(entry reach node (clique.headD node) = true
          ∧ entry reach (clique.headD node) node = true) := by
  induction cliques with
  | nil => exact .inr ⟨rfl, nofun⟩
  | cons clique cliques ih =>
    rw [joinClique]
    split
    · next hjoins =>
      rw [Bool.and_eq_true] at hjoins
      exact .inl ⟨[], clique, cliques, rfl, rfl, hjoins⟩
    · next hnot =>
      rw [Bool.and_eq_true] at hnot
      rcases ih with ⟨before, other, after, rfl, hjoin, hentries⟩ | ⟨hjoin, hnone⟩
      · exact .inl ⟨clique :: before, other, after, rfl, by rw [hjoin]; rfl, hentries⟩
      · exact .inr ⟨by rw [hjoin]; rfl, List.forall_mem_cons.2 ⟨hnot, hnone⟩⟩

theorem headD_mem {clique : List Nat} (h : clique ≠ []) (node : Nat) :
    clique.headD node ∈ clique := by
  cases clique with
  | nil => exact absurd rfl h
  | cons first _ => exact List.mem_cons_self

/-- A node may join a class if it and a member of the class reach each other. -/
theorem Partition.join {count member : Nat} {clique : List Nat} {before after : List (List Nat)}
    (h : g.Partition count (before ++ clique :: after)) (hmember : member ∈ clique)
    (hmutual : g.Mutual count member) :
    g.Partition (count + 1) (before ++ (clique ++ [count]) :: after) := by
  have hjoined {i : Nat} (hi : i ∈ clique) : g.Mutual count i :=
    hmutual.trans (h.connected clique (List.mem_append_right _ List.mem_cons_self) _ hmember i hi)
  have hself : g.Mutual count count := ⟨.refl, .refl⟩
  -- only the pairs with the class that grows have to be looked at again
  obtain ⟨hbefore, hrest, hcross⟩ := List.pairwise_append.1 h.separate
  obtain ⟨hafter, hrest⟩ := List.pairwise_cons.1 hrest
  refine ⟨fun i => ?_, ?_, ?_, List.pairwise_append.2 ⟨hbefore, List.pairwise_cons.2 ⟨?_, hrest⟩,
    ?_⟩⟩
  · rw [Nat.lt_succ_iff_lt_or_eq, ← h.mem_iff i]
    simp only [List.mem_append, List.mem_cons, or_and_right, exists_or, exists_eq_left,
      List.not_mem_nil, or_false]
    grind
  · have hne := h.ne_nil
    simp only [List.forall_mem_append, List.forall_mem_cons] at hne ⊢
    exact ⟨hne.1, List.append_ne_nil_of_right_ne_nil _ (List.cons_ne_nil _ _), hne.2.2⟩
  · have hconnected := h.connected
    simp only [List.forall_mem_append, List.forall_mem_cons] at hconnected ⊢
    refine ⟨hconnected.1, ⟨fun i hi => ⟨hconnected.2.1 i hi, ?_, nofun⟩, ⟨fun j hj => hjoined hj,
      hself, nofun⟩, nofun⟩, hconnected.2.2⟩
    exact (hjoined hi).symm
  -- what reaches the node and is reached by it does so with the member as well
  · intro other hother i hi j hj hij
    rcases List.mem_append.1 hi with hi | hi
    · exact hafter other hother i hi j hj hij
    · rw [List.mem_singleton.1 hi] at hij
      exact hafter other hother _ hmember j hj (hmutual.symm.trans hij)
  · intro other hother clique' hclique' i hi j hj hij
    rcases List.mem_cons.1 hclique' with rfl | hclique'
    · rcases List.mem_append.1 hj with hj | hj
      · exact hcross other hother clique List.mem_cons_self i hi j hj hij
      · rw [List.mem_singleton.1 hj] at hij
        exact hcross other hother clique List.mem_cons_self i hi _ hmember (hij.trans hmutual)
    · exact hcross other hother clique' (List.mem_cons_of_mem _ hclique') i hi j hj hij

/-- A node makes a class of its own if it reaches no member of a class that reaches it. -/
theorem Partition.concat {count : Nat} {cliques : List (List Nat)} (h : g.Partition count cliques)
    (hnone : ∀ clique ∈ cliques, ∀ i ∈ clique, ¬g.Mutual i count) :
    g.Partition (count + 1) (cliques ++ [[count]]) := by
  refine ⟨fun i => ?_, ?_, ?_, List.pairwise_append.2 ⟨h.separate, List.pairwise_singleton _ _,
    ?_⟩⟩
  · rw [Nat.lt_succ_iff_lt_or_eq, ← h.mem_iff i]
    simp [or_and_right, exists_or]
  · simp only [List.forall_mem_append, List.forall_mem_singleton]
    exact ⟨h.ne_nil, List.cons_ne_nil _ _⟩
  · simp only [List.forall_mem_append, List.forall_mem_singleton]
    exact ⟨h.connected, .refl, .refl⟩
  · intro clique hclique clique' hclique' i hi j hj hij
    rw [List.mem_singleton.1 hclique', List.mem_singleton] at hj
    exact hnone clique hclique i hi (hj ▸ hij)

/-- The next node is put where it belongs. -/
theorem Partition.joinClique (hg : g.WellFormed) {count : Nat} (hcount : count < g.size)
    {cliques : List (List Nat)} (h : g.Partition count cliques) :
    g.Partition (count + 1) (joinClique g.closure count cliques) := by
  have hhead {clique : List Nat} (hclique : clique ∈ cliques) : clique.headD count ∈ clique :=
    headD_mem (h.ne_nil clique hclique) count
  have hentries {clique : List Nat} (hclique : clique ∈ cliques) :
      (entry g.closure count (clique.headD count) = true
          ∧ entry g.closure (clique.headD count) count = true)
        ↔ g.Mutual count (clique.headD count) := by
    have hlt := ((h.mem_iff _).1 ⟨clique, hclique, hhead hclique⟩).trans hcount
    rw [entry_closure_iff hg hcount, entry_closure_iff hg hlt]
    rfl
  rcases joinClique_cases g.closure count cliques with
    ⟨before, clique, after, rfl, hjoin, hmutual⟩ | ⟨hjoin, hnone⟩
  · have hclique : clique ∈ before ++ clique :: after := List.mem_append_right _ List.mem_cons_self
    rw [hjoin]
    exact h.join (hhead hclique) ((hentries hclique).1 hmutual)
  · rw [hjoin]
    -- a node that reached a member and was reached by it would have joined the class
    refine h.concat fun clique hclique i hi hij => hnone clique hclique ((hentries hclique).2 ?_)
    exact hij.symm.trans (h.connected clique hclique i hi _ (hhead hclique))

/-- The cliques partition the nodes, and two nodes share a clique just if they reach each other. -/
theorem partition_cliques (hg : g.WellFormed) : g.Partition g.size g.cliques := by
  have hpartition : ∀ count ≤ g.size, g.Partition count
      ((List.range count).foldl (fun cliques node => joinClique g.closure node cliques) []) := by
    intro count
    induction count with
    | zero => exact fun _ => ⟨by simp, nofun, nofun, .nil⟩
    | succ count ih =>
      intro hcount
      rw [List.range_succ, List.foldl_append]
      exact (ih (Nat.le_of_succ_le hcount)).joinClique hg hcount
  exact hpartition g.size (Nat.le_refl _)

end Clausal.DependencyGraph
