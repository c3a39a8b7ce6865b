import Clausal.Surface.Variables

/-!
# Dependency groups

Which declarations of a block depend on which, and the groups of declarations that have to be
bound together. `closure` is the reachability relation, `cliques` its classes of mutual
reachability, and `groups` lists the classes so that none depends on a later one.
-/

namespace Clausal

/-- A dependency relation between the numbers below `rows.length`, each of which depends on
itself. Row `i` tells for each `j` whether `i` depends on `j`. -/
structure DependencyGraph where
  /-- The rows of the relation. -/
  rows : List (List Bool)

namespace DependencyGraph

/-- The entry of a matrix in row `i` and column `j`, false outside of it. -/
def entry (rows : List (List Bool)) (i j : Nat) : Bool :=
  ((rows[i]?).bind fun row => row[j]?).getD false

/-- The number of nodes. -/
def size (g : DependencyGraph) : Nat := g.rows.length

/-- Whether node `i` depends on node `j`. -/
def dependsOn (g : DependencyGraph) (i j : Nat) : Bool := entry g.rows i j

/-- The graph of a relation on the numbers below `size`. -/
def ofRelation (size : Nat) (related : Nat → Nat → Bool) : DependencyGraph where
  rows := (List.range size).map fun i => (List.range size).map fun j => i == j || related i j

/-- The graph with the given edges, each from a node to one that it depends on. -/
def ofEdges (size : Nat) (edges : List (Nat × Nat)) : DependencyGraph :=
  ofRelation size fun i j => edges.contains (i, j)

/-- A declaration depends on another if it uses a name that the other binds. -/
def ofBindings (bindings : List (Pattern × Expr)) : DependencyGraph :=
  let free := bindings.map fun (_, body) => body.free
  let bound := bindings.map fun (pattern, _) => pattern.boundNames
  ofRelation bindings.length fun i j =>
    (bound[j]?.getD []).any fun name => (free[i]?.getD []).contains name

/-! ## Reachability -/

/-- Adds the paths through node `k` to a relation. -/
def closeThrough (rows : List (List Bool)) (k : Nat) : List (List Bool) :=
  let through := rows[k]?.getD []
  rows.map fun row => if row[k]?.getD false then row.zipWith (· || ·) through else row

/-- The rows of the reachability relation: one node after the other is allowed on a path. -/
def closure (g : DependencyGraph) : List (List Bool) :=
  (List.range g.size).foldl closeThrough g.rows

/-! ## Classes of mutual reachability -/

/-- Puts a node into the first class whose first member it reaches and is reached by, or into a
class of its own behind the others. -/
def joinClique (reach : List (List Bool)) (node : Nat) : List (List Nat) → List (List Nat)
  | [] => [[node]]
  | clique :: cliques =>
    let representative := clique.headD node
    if entry reach node representative && entry reach representative node then
      (clique ++ [node]) :: cliques
    else clique :: joinClique reach node cliques

/-- The classes of mutual reachability, with the classes and their members in ascending order. -/
def cliques (g : DependencyGraph) : List (List Nat) :=
  let reach := g.closure
  (List.range g.size).foldl (fun cliques node => joinClique reach node cliques) []

/-- The graph of the classes: one depends on another if a member of it depends on a member of the
other. -/
def quotient (g : DependencyGraph) (cliques : List (List Nat)) : DependencyGraph :=
  ofRelation cliques.length fun a b =>
    (cliques[a]?.getD []).any fun i => (cliques[b]?.getD []).any fun j => g.dependsOn i j

/-! ## The order of the classes -/

/-- The nodes other than itself that a node depends on. -/
def targets (g : DependencyGraph) (node : Nat) : List Nat :=
  (List.range g.size).filter fun target => target != node && g.dependsOn node target

/-- How many nodes other than itself depend on a node. -/
def incoming (g : DependencyGraph) (node : Nat) : Nat :=
  (List.range g.size).countP fun source => source != node && g.dependsOn source node

/-- Takes up to `count` nodes off a graph, always the least one on which no node left depends.
`waiting` counts for each node the ones left that depend on it, and `ready` lists in ascending
order the nodes left for which that count is zero. The node taken last comes first. -/
def peel (g : DependencyGraph) : (count : Nat) → (ready waiting taken : List Nat) → List Nat
  | 0, _, _, taken => taken
  | _ + 1, [], _, taken => taken
  | count + 1, next :: ready, waiting, taken =>
    let targets := g.targets next
    let waiting := waiting.mapIdx fun node n => if targets.contains node then n - 1 else n
    let released := targets.filter fun node => waiting[node]?.getD 0 == 0
    g.peel count (ready.merge released) waiting (next :: taken)

/-- The nodes in an order in which each stands behind those that it depends on. -/
def dependenciesFirst (g : DependencyGraph) : List Nat :=
  let waiting := (List.range g.size).map g.incoming
  let ready := (List.range g.size).filter fun node => g.incoming node == 0
  g.peel g.size ready waiting []

/-- The classes of mutual reachability, none of which depends on a later one. -/
def groups (g : DependencyGraph) : List (List Nat) :=
  let cliques := g.cliques
  (g.quotient cliques).dependenciesFirst.filterMap fun index => cliques[index]?

end DependencyGraph

end Clausal
