import IndexDesign.Plan.Basic

/-! # Plan trees — all plans of a query, sharing their first steps

    The branches that go on from a point form a forest: a first transition with
    the branches that go on from it, followed by the other branches.  Every
    leaf of a plan tree is the end of a plan.

    The nodes of a tree are numbered depth first from the root, which is zero.
    A root without branches is not a leaf: such a tree has no plans. -/

namespace IndexDesign

/-- Branches of a search, in order. -/
inductive Forest (α : Type) where
  /-- No branches. -/
  | empty
  /-- A transition, the branches that go on from it, and the branches beside it. -/
  | branch (first : Transition α) (onward beside : Forest α)

namespace Forest

variable {α : Type}

def isEmpty : Forest α → Bool
  | empty => true
  | branch .. => false

/-- The number of transitions. -/
def size : Forest α → Nat
  | empty => 0
  | branch _ onward beside => 1 + onward.size + beside.size

/-- The plans of the branches, where `path` lists the steps before them. -/
def plans (path : List (Step α)) : Forest α → List (Plan α)
  | empty => []
  | branch t onward beside =>
    let path' := path ++ [t.step]
    (if onward.isEmpty then [⟨path', t.state⟩] else onward.plans path') ++ beside.plans path

/-- The branches without the plans that fail a test and without transitions that lead to no
    plan any more. -/
def retain (keep : Plan α → Bool) (path : List (Step α)) : Forest α → Forest α
  | empty => empty
  | branch t onward beside =>
    let path' := path ++ [t.step]
    let onward' := onward.retain keep path'
    let beside' := beside.retain keep path
    let alive := if onward.isEmpty then keep ⟨path', t.state⟩ else !onward'.isEmpty
    if alive then branch t onward' beside' else beside'

/-- The numbers of the first nodes of the branches, of which the first has the given one. -/
def roots (first : Nat) : Forest α → List Nat
  | empty => []
  | branch _ onward beside => first :: beside.roots (first + 1 + onward.size)

/-- One line for each transition, indented by its depth. -/
def lines [Rendered α] (depth : Nat) : Forest α → List String
  | empty => []
  | branch t onward beside =>
    line depth t.step :: (onward.lines (depth + 1) ++ beside.lines depth)
where
  /-- A step with its cost and rows, indented. -/
  line (depth : Nat) (step : Step α) : String :=
    let cost := Rendered.fixed 4 step.cost
    let rows := Rendered.fixed 2 step.rows
    "".pushn ' ' (2 * depth) ++ s!"{step.text} (代价 {cost}, 基数 {rows})"

end Forest

/-- A node of a plan tree with the numbers of its neighbours. -/
structure TreeNode (α : Type) where
  transition : Transition α
  parent : Option Nat
  children : List Nat
  /-- The steps from the root to the node, without the root. -/
  path : List (Step α)

namespace TreeNode

variable {α : Type}

def isLeaf (n : TreeNode α) : Bool := n.children.isEmpty

/-- The plan that ends in the node. -/
def plan (n : TreeNode α) : Plan α := ⟨n.path, n.transition.state⟩

end TreeNode

/-- The nodes of branches in depth-first order, the first with the given number, beneath a
    parent and after the steps of `path`. -/
def Forest.nodes {α : Type} (parent first : Nat) (path : List (Step α)) :
    Forest α → List (TreeNode α)
  | empty => []
  | branch t onward beside =>
    let path' := path ++ [t.step]
    ⟨t, some parent, onward.roots (first + 1), path'⟩ ::
      (onward.nodes first (first + 1) path' ++
        beside.nodes parent (first + 1 + onward.size) path)

/-- The plans of a query and what the search for them met. -/
structure PlanTree (α : Type) where
  root : Transition α
  branches : Forest α
  /-- The number of unanswered states that the search extended. -/
  expanded : Nat
  /-- The rejections that the search met, dead branches included. -/
  rejections : List Rejection

namespace PlanTree

variable {α : Type}

/-- The query of the tree. -/
def query (t : PlanTree α) : Query α := t.root.state.query

/-- The number of steps beneath the root. -/
def size (t : PlanTree α) : Nat := t.branches.size

/-- Whether the tree has no plans. -/
def isEmpty (t : PlanTree α) : Bool := t.branches.isEmpty

/-- The plans, depth first. -/
def plans (t : PlanTree α) : List (Plan α) := t.branches.plans []

/-- The nodes in the order of their numbers. -/
def nodes (t : PlanTree α) : List (TreeNode α) :=
  ⟨t.root, none, t.branches.roots 1, []⟩ :: t.branches.nodes 0 1 []

/-- The numbers of the nodes at which plans end. -/
def leaves (t : PlanTree α) : List Nat :=
  if t.isEmpty then [] else (t.nodes.zipIdx.filter (·.1.isLeaf)).map (·.2)

/-- The plan that ends in the node of a number. -/
def planAt? (t : PlanTree α) (id : Nat) : Option (Plan α) := t.nodes[id]?.map (·.plan)

/-- The tree with only the plans that pass a test. -/
def retain (t : PlanTree α) (keep : Plan α → Bool) : PlanTree α :=
  { t with branches := t.branches.retain keep [] }

/-- How often the search met a rejection. -/
def count (t : PlanTree α) (r : Rejection) : Nat := t.rejections.count r

/-- The rejections that the search met and how often, in their order. -/
def counts (t : PlanTree α) : List (Rejection × Nat) :=
  (Rejection.all.map fun r => (r, t.count r)).filter (0 < ·.2)

/-- The tree in words: a line for each step and, where there are no plans, how far the search
    came. -/
def text [Scalar α] [Rendered α] (t : PlanTree α) : String :=
  let steps := Forest.lines.line 0 t.root.step :: t.branches.lines 1
  let summary :=
    if t.isEmpty then
      let counts := t.counts.map fun (r, n) => s!"\n  拒绝 {r.name}: {n} 次"
      s!"{t.root.state.text}\n展开节点 {t.expanded} 个" ++ "".intercalate counts
    else ""
  "".intercalate (steps.map (· ++ "\n")) ++ summary

variable [Scalar α]

/-- The plan of least cost; of several the first. -/
def minPlan? (t : PlanTree α) : Option (Plan α) :=
  match t.plans with
  | [] => none
  | p :: ps => some (ps.foldl (fun best q => if best.cost ≤ q.cost then best else q) p)

/-- The tree without the plans that cost more than `ratio` times the least. -/
def prunedByCostRatio (t : PlanTree α) (ratio : α) : PlanTree α :=
  match t.minPlan? with
  | none => t
  | some best =>
    let most := best.cost * ratio
    t.retain fun p => decide (p.cost ≤ most)

end PlanTree

end IndexDesign
