import IndexDesign.Plan.Search

/-! # Arenas — plan trees as lists of numbered nodes

    A plan tree can be kept as one list of nodes, each with the numbers of its
    parent and of its children.  A search adds a node for every step that it
    tries, and cuts the list off again where the step leads to no answered
    state.  Plans are dropped by marking the nodes on the way to those that
    stay, numbering the marked nodes anew, and listing their children anew. -/

namespace IndexDesign

/-- A node with the numbers of its neighbours. -/
structure ArenaNode (α : Type) where
  transition : Transition α
  parent : Option Nat
  children : List Nat

def ArenaNode.isLeaf {α : Type} (n : ArenaNode α) : Bool := n.children.isEmpty

/-- The nodes of a plan tree in the order of their numbers, the root first. -/
structure Arena (α : Type) where
  nodes : List (ArenaNode α)

namespace Arena

variable {α : Type}

/-- Whether the root has no children. -/
def isEmpty (a : Arena α) : Bool := a.nodes[0]?.all (·.isLeaf)

/-- The numbers of the nodes at which plans end. -/
def leaves (a : Arena α) : List Nat :=
  if a.isEmpty then []
  else (List.range' 1 (a.nodes.length - 1)).filter fun id => a.nodes[id]?.any (·.isLeaf)

/-- The number of a node and those of the nodes above it, up to the root.  Parents come before
    their children, and none that does not is followed. -/
def lineage (a : Arena α) (id : Nat) : List Nat :=
  match a.nodes[id]?.bind (·.parent) with
  | none => [id]
  | some parent => if parent < id then id :: a.lineage parent else [id]
termination_by id

/-- The step of a node, unless it is the root. -/
def step? (a : Arena α) (id : Nat) : Option (Step α) :=
  a.nodes[id]?.bind fun n => n.parent.map fun _ => n.transition.step

/-- The plan that ends in the node of a number. -/
def planAt? (a : Arena α) (id : Nat) : Option (Plan α) :=
  a.nodes[id]?.map fun n => ⟨((a.lineage id).filterMap a.step?).reverse, n.transition.state⟩

/-- The plans, in the order of their leaves. -/
def plans (a : Arena α) : List (Plan α) := a.leaves.filterMap a.planAt?

/-! ## Dropping plans -/

/-- Whether the node is the root or on the way to a plan that passes a test. -/
def isAlive (a : Arena α) (keep : Plan α → Bool) (id : Nat) : Bool :=
  id == 0 || a.leaves.any fun leaf => (a.planAt? leaf).any keep && (a.lineage leaf).contains id

/-- The new number of a parent, if there is one and it has one. -/
def renumber (numbers : List (Option Nat)) (parent : Option Nat) : Option Nat :=
  parent.bind fun p => numbers[p]?.join

/-- Takes up the next node if it is alive, without children and beneath the new number of its
    parent.  The first list has the new numbers of the nodes before, as far as these are alive, and
    the second the nodes that have been taken up. -/
def takeUp (alive : Nat → Bool) (taken : List (Option Nat) × List (ArenaNode α))
    (n : ArenaNode α) : List (Option Nat) × List (ArenaNode α) :=
  let (numbers, nodes) := taken
  if alive numbers.length then
    (numbers ++ [some nodes.length], nodes ++ [⟨n.transition, renumber numbers n.parent, []⟩])
  else (numbers ++ [none], nodes)

/-- Lists the node of a number among the children of its parent, as the last. -/
def adopt (nodes : List (ArenaNode α)) (id : Nat) : List (ArenaNode α) :=
  match nodes[id]?.bind (·.parent) with
  | none => nodes
  | some parent => nodes.modify parent fun n => { n with children := n.children ++ [id] }

/-- The arena with only the plans that pass a test. -/
def retain (a : Arena α) (keep : Plan α → Bool) : Arena α :=
  let taken := (a.nodes.foldl (takeUp (a.isAlive keep)) ([], [])).2
  ⟨(List.range' 1 (taken.length - 1)).foldl adopt taken⟩

end Arena

/-- The arena of a plan tree. -/
def PlanTree.arena {α : Type} (t : PlanTree α) : Arena α :=
  ⟨t.nodes.map fun n => ⟨n.transition, n.parent, n.children⟩⟩

namespace Planner

variable {α : Type} [Scalar α]

/-- Extends the node of a number by what lies beyond its transition, and says whether that is an
    answered state; `path` lists the steps of the branch, the latest first, which is extended by
    at most `length` steps. -/
def expand (p : Planner α) : (length : Nat) → (path : List (Step α)) → Transition α →
    (id : Nat) → List (ArenaNode α) → Bool × List (ArenaNode α)
  | 0, _, t, _, nodes => (t.state.isAnswered, nodes)
  | length + 1, path, t, id, nodes =>
    if t.state.isAnswered then (true, nodes)
    else
      let extended := ((p.attempts path t).filterMap (·.toOption)).foldl (fun nodes next =>
        let child := nodes.length
        let (alive, grown) :=
          p.expand length (next.step :: path) next child (nodes ++ [⟨next, some id, []⟩])
        if alive then Arena.adopt grown child else grown.take child) nodes
      (!extended[id]?.all (·.isLeaf), extended)

/-- All ways to answer a query, before validation, in one list. -/
def searchArena (p : Planner α) (q : Query α) : Arena α :=
  let root := Transition.start q
  ⟨(p.expand (p.branchLength q) [] root 0 [⟨root, none, []⟩]).2⟩

end Planner

end IndexDesign
