import IndexDesign.Graph.Basic

/-! # Traversals of join graphs — reachability, parts, longest paths, join orders

    Edges are walked in both directions.  Every traversal visits the neighbours
    of an entity by name, so its result depends on the graph alone.  A walk
    follows an edge to its other end whether or not that is an entity of the
    graph, so it can meet the names of all ends.

    The join order of a query starts at the leaf with an equality condition and
    the fewest rows and goes depth first from there. -/

namespace IndexDesign.JoinGraph

-- Sums of counts start at the built-in zero, whatever other instances are in sight.
attribute [local instance (high)] Zero.ofOfNat0

/-- The entities joined to the given one, by name. -/
def neighbors (g : JoinGraph) (entity : String) : List String :=
  (SortedSet.ofList (g.edges.toList.filterMap (·.other entity))).toList

/-- The names that walks can meet: the entities and the ends of the edges. -/
def nodes (g : JoinGraph) : List String :=
  (SortedSet.ofList (g.names ++ g.edges.toList.flatMap fun e => [e.source, e.target])).toList

/-- Whether the entity is in the graph and has at most one neighbour. -/
def isLeaf (g : JoinGraph) (entity : String) : Bool :=
  g.contains entity && decide ((g.neighbors entity).length ≤ 1)

/-- The entities with at most one neighbour, by name. -/
def leaves (g : JoinGraph) : List String :=
  g.names.filter fun name => decide ((g.neighbors name).length ≤ 1)

/-! ## Reachability -/

/-- The set grown by `rounds` rounds of adding neighbours that are not excluded. -/
def grow (g : JoinGraph) (excluded : List String) :
    (rounds : Nat) → SortedSet String → SortedSet String
  | 0, seen => seen
  | rounds + 1, seen =>
    let next := (seen.toList.flatMap g.neighbors).filter (! excluded.contains ·)
    grow g excluded rounds (seen.union (SortedSet.ofList next))

/-- The names that a walk from `start` reaches without entering an excluded one. -/
def reachable (g : JoinGraph) (excluded : List String) (start : String) : SortedSet String :=
  g.grow excluded g.nodes.length ((∅ : SortedSet String).insert start)

/-- Whether walks from the first entity reach as many names as there are entities; the empty
    graph is connected. -/
def isConnected (g : JoinGraph) : Bool :=
  match g.names with
  | [] => true
  | start :: _ => (g.reachable [] start).size == g.size

/-- The sets of names that walks around `cut` connect, of those listed, each at its
    first entity that no earlier set has. -/
def components (g : JoinGraph) (cut : String) :
    List String → (seen : SortedSet String) → List (SortedSet String)
  | [], _ => []
  | start :: rest, seen =>
    if start = cut ∨ start ∈ seen then g.components cut rest seen
    else
      let component := g.reachable [cut] start
      component :: g.components cut rest (seen.union component)

/-- The parts into which the graph falls at an entity; `keep` leaves that entity in every
    part. -/
def split (g : JoinGraph) (cut : String) (keep : Bool) : List JoinGraph :=
  (g.components cut g.names ∅).map fun component =>
    g.subgraph (component.toList ++ if keep && g.contains cut then [cut] else [])

/-! ## Longest path -/

/-- The simple paths that go on from `path`, which ends in `last`, until no neighbour is
    left; at most `steps` entities are added. -/
def maximalPaths (g : JoinGraph) : (steps : Nat) → (last : String) → (path : List String) →
    List (List String)
  | 0, _, path => [path]
  | steps + 1, last, path =>
    match (g.neighbors last).filter (! path.contains ·) with
    | [] => [path]
    | next => next.flatMap fun v => g.maximalPaths steps v (path ++ [v])

/-- The longer of two paths, the smaller of two equally long ones, by names. -/
def betterPath (best path : List String) : List String :=
  if best.length < path.length ∨ (path.length = best.length ∧ path < best) then path else best

/-- The longest simple path that starts at a leaf; of several the smallest by names. -/
def longestPath (g : JoinGraph) : List String :=
  (g.leaves.flatMap fun leaf => g.maximalPaths g.nodes.length leaf [leaf]).foldl betterPath []

/-! ## Join order -/

/-- The entity of the list with the fewest rows; of several the first. -/
def fewestRows (g : JoinGraph) : List String → Option String
  | [] => none
  | name :: rest =>
    let rows := fun n => (g.entity? n).elim 0 (·.count)
    some (rest.foldl (fun best n => if rows n < rows best then n else best) name)

/-- The leaf from which a query with the given equality conditions is answered: the one
    with the fewest rows among those with such a condition, or among all where none has. -/
def startLeaf (g : JoinGraph) (eq : FieldSet) : Option String :=
  let conditioned := g.leaves.filter fun leaf => eq.toList.any (·.entity == leaf)
  (g.fewestRows conditioned).or (g.fewestRows g.leaves)

/-- The entities visited in depth-first order: `stack` lists the entities to visit next,
    `order` those visited.  At most `pops` entities are taken from the stack. -/
def walk (g : JoinGraph) : (pops : Nat) → (stack order : List String) → List String
  | 0, _, order => order
  | _, [], order => order
  | pops + 1, v :: stack, order =>
    if order.contains v then g.walk pops stack order
    else g.walk pops (g.neighbors v ++ stack) (order ++ [v])

/-- A bound on the names that a walk puts on its stack: its start, and the neighbours of each
    name once. -/
def walkLength (g : JoinGraph) : Nat := 1 + (g.nodes.map fun v => (g.neighbors v).length).sum

/-- The order in which a query with the given equality conditions visits the entities.  A
    graph of several entities without a leaf has none. -/
def joinOrder (g : JoinGraph) (eq : FieldSet) : List String :=
  if g.size ≤ 1 then g.names
  else
    match g.startLeaf eq with
    | some start => g.walk g.walkLength [start] []
    | none => []

end IndexDesign.JoinGraph
