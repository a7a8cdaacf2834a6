import IndexDesign.ZeroOne.Bound

/-! # Branch and bound — the least assignment by depth-first search

    A node of the search is a partial assignment.  Visiting it propagates the
    constraints and drops the node where they cannot hold or where the lower
    bound says that no completion improves on the best assignment so far.
    Otherwise the node has two children, in which one more variable is true in
    one and false in the other, or it assigns every variable and is a candidate.

    The search visits at most as many nodes as its limit allows; at the limit
    it answers with the best assignment it has. -/

namespace IndexDesign.ZeroOne

variable {α : Type} [Scalar α]

/-- What visiting a node leads to. -/
inductive Visit (α : Type) where
  /-- No completion of the node is of use. -/
  | dropped
  /-- The node is an assignment better than the best so far. -/
  | improved (found : Assignment α)
  /-- Two nodes take the place of this one; `first` is visited first. -/
  | split (first second : Partial)

namespace Program

/-- The variable on which a node splits and the value that is tried first: in the first
    partition that is not settled the cheapest free variable, true first; if there is none,
    the first free variable, true first where that lowers the objective. -/
def branch? (m : Program α) (partitions : List (Constraint α)) (p : Partial) :
    Option (Nat × Bool) :=
  let cheapest := partitions.findSome? fun c =>
    if c.isSettled p then none else Scalar.firstLeast m.objective (c.freeVariables p)
  match cheapest with
  | some v => some (v, true)
  | none => (p.findIdx? (·.isNone)).map fun v => (v, decide (m.objective v < Scalar.zero))

/-- Whether an objective is lower than the best so far by more than the tolerance. -/
def improves (best : Option (Assignment α)) (objective : α) : Bool :=
  best.all fun b => decide (objective < b.objective - Scalar.tolerance)

/-- Whether a lower bound leaves no room for an improvement of the best so far. -/
def isPruned (best : Option (Assignment α)) (bound : α) : Bool :=
  best.any fun b => decide (b.objective - Scalar.tolerance ≤ bound)

/-- What visiting a node leads to, given the best assignment so far. -/
def visit (m : Program α) (partitions : List (Constraint α)) (best : Option (Assignment α))
    (node : Partial) : Visit α :=
  match m.propagate node with
  | none => .dropped
  | some p =>
    if isPruned best (m.lowerBound partitions p) then .dropped
    else
      match m.branch? partitions p with
      | some (v, b) => .split (p.assign v b) (p.assign v !b)
      | none =>
        let values := p.total
        let objective := m.objectiveValue values
        if m.isFeasible values && improves best objective then .improved ⟨values, objective⟩
        else .dropped

/-- How a search ends. -/
structure Ending (α : Type) where
  /-- The best assignment that was found. -/
  best : Option (Assignment α)
  /-- Whether nodes were left when the limit was reached. -/
  limited : Bool

/-- The search over the nodes of a stack, with the best assignment so far, that visits at
    most `allowance` nodes. -/
def explore (m : Program α) (partitions : List (Constraint α)) :
    (allowance : Nat) → (stack : List Partial) → (best : Option (Assignment α)) → Ending α
  | _, [], best => ⟨best, false⟩
  | 0, _ :: _, best => ⟨best, true⟩
  | allowance + 1, node :: stack, best =>
    match m.visit partitions best node with
    | .dropped => m.explore partitions allowance stack best
    | .improved found => m.explore partitions allowance stack (some found)
    | .split first second => m.explore partitions allowance (first :: second :: stack) best

end Program

/-- Branch and bound with a limit on the nodes visited. -/
structure BranchAndBound where
  maxNodes : Nat
  maxNodes_pos : 0 < maxNodes

namespace BranchAndBound

/-- The search that visits at most the given number of nodes, and at least one. -/
def ofLimit (nodes : Nat) : BranchAndBound := ⟨max nodes 1, by omega⟩

/-- The search that visits at most a million nodes. -/
def standard : BranchAndBound := ofLimit 1000000

/-- The name of the method. -/
def name : String := "branch-and-bound"

/-- The least assignment of a program, or the best one found within the limit. -/
def solve (s : BranchAndBound) : Solver α := fun m =>
  let ending := m.explore m.partitions s.maxNodes [Partial.free m.vars.size] none
  match ending.best with
  | some found => .ok found
  | none => .error (if ending.limited then .nodeLimit s.maxNodes else .infeasible)

end BranchAndBound

end IndexDesign.ZeroOne
