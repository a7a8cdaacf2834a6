import IndexDesign.Config.Basic
import IndexDesign.Plan.Lookup
import IndexDesign.Plan.Tree

/-! # The plan search — every way to answer a query by the candidate indexes

    From a state that is not answered the search goes on by each step that
    applies: filter, sort, limit and aggregate in memory, then the lookups of
    candidate indexes in the order of their keys.  A branch uses an index once
    and looks up no more indexes than allowed.  Branches that lead to no
    answered state are dropped. -/

namespace IndexDesign

-- Sums of counts start at the built-in zero, whatever other instances are in sight.
attribute [local instance (high)] Zero.ofOfNat0

/-- Plans queries by candidate indexes. -/
structure Planner (α : Type) where
  /-- The candidate indexes, each once, in the order of their keys. -/
  pool : List Index
  costs : CostModel α
  config : PlanningConfig α

/-- What the search finds beyond a state. -/
structure Explored (α : Type) where
  branches : Forest α
  /-- The number of unanswered states, this one included. -/
  expanded : Nat
  rejections : List Rejection

namespace Planner

variable {α : Type}

/-- The planner over the given candidates. -/
def ofIndexes (indexes : List Index) (costs : CostModel α) (config : PlanningConfig α) :
    Planner α :=
  ⟨Index.pool indexes, costs, config⟩

variable [Scalar α]

/-- Whether the branch of the given steps has all the lookups it may have. -/
def atLookupLimit (p : Planner α) (path : List (Step α)) : Bool :=
  p.config.maxLookups.any fun most => decide (most ≤ path.countP (·.isLookup))

/-- The lookups to try after a transition, of the candidates on the entity where the branch
    stands; `path` lists the steps of the branch, the latest first. -/
def lookups (p : Planner α) (path : List (Step α)) (t : Transition α) :
    List (Except Rejection (Transition α)) :=
  if p.atLookupLimit path then [.error .lookupLimit]
  else
    let used := (path.filterMap (·.lookedUp?)).map (·.key)
    let context : LookupContext :=
      { last := path.findSome? (·.lookedUp?), afterAggregation := t.step.isAggregating }
    let near := p.pool.filter fun index => t.state.joins.head?.any index.graph.contains
    near.map fun index =>
      if used.contains index.key then .error .indexReused
      else Transition.lookup p.costs t.state context index

/-- The steps to try after a transition: in memory, then lookups. -/
def attempts (p : Planner α) (path : List (Step α)) (t : Transition α) :
    List (Except Rejection (Transition α)) :=
  [Transition.filter p.costs t.state, Transition.sort p.costs t.state,
    Transition.limit p.costs t.state, Transition.aggregate p.costs t.state] ++ p.lookups path t

/-- The rejections among attempts, less those of steps that had nothing to do. -/
def refusals (attempts : List (Except Rejection (Transition α))) : List Rejection :=
  attempts.filterMap fun
    | .ok _ | .error .notApplicable => none
    | .error reason => some reason

/-- The branches of transitions with what lies beyond them, less those that lead to no
    answered state. -/
def join : List (Transition α × Explored α) → Forest α
  | [] => .empty
  | (t, beyond) :: rest =>
    if t.state.isAnswered || !beyond.branches.isEmpty then
      .branch t beyond.branches (join rest)
    else join rest

/-- What lies beyond a transition at the end of a branch; the branch is extended by at most
    `length` steps. -/
def explore (p : Planner α) :
    (length : Nat) → (path : List (Step α)) → Transition α → Explored α
  | 0, _, _ => ⟨.empty, 0, []⟩
  | length + 1, path, t =>
    if t.state.isAnswered then ⟨.empty, 0, []⟩
    else
      let attempts := p.attempts path t
      let beyond := (attempts.filterMap (·.toOption)).map fun next =>
        (next, p.explore length (next.step :: path) next)
      { branches := join beyond
        expanded := 1 + (beyond.map (·.2.expanded)).sum
        rejections := refusals attempts ++ beyond.flatMap (·.2.rejections) }

/-- More steps than a branch can have: each lookup uses another index, each filter applies
    another condition, and a branch sorts, cuts off and aggregates at most once each. -/
def branchLength (p : Planner α) (q : Query α) : Nat :=
  p.pool.length + q.eq.size + q.range.size + 4

/-- All ways to answer a query, before validation. -/
def search (p : Planner α) (q : Query α) : PlanTree α :=
  let root := Transition.start q
  let explored := p.explore (p.branchLength q) [] root
  ⟨root, explored.branches, explored.expanded, explored.rejections⟩

variable [Rendered α]

/-- The tree, unless it has no plans. -/
def orNoPlan (t : PlanTree α) : Except (PlanningError α) (PlanTree α) :=
  if t.isEmpty then .error (.noPlanFound t.query.text t.text) else .ok t

/-- The tree with its valid plans, less those that cost too many times the least. -/
def refine (p : Planner α) (t : PlanTree α) : PlanTree α :=
  let valid := t.retain (·.fault?.isNone)
  p.config.costRatio.elim valid valid.prunedByCostRatio

/-- The plans of a query. -/
def plan (p : Planner α) (q : Query α) : Except (PlanningError α) (PlanTree α) := do
  let found ← orNoPlan (p.search q)
  orNoPlan (p.refine found)

end Planner

end IndexDesign
