import IndexDesign.DesignError
import IndexDesign.Selection.Problem
import IndexDesign.Statement.Workload
import IndexDesign.ZeroOne.BranchAndBound

/-! # Designing — from a workload to its indexes

    Every query is planned over the candidates, every write says what it does
    to them, the costs are attributed to indexes, and a solver chooses. -/

namespace IndexDesign

open ZeroOne

/-- Designs the indexes of a workload. -/
structure Designer (α : Type) where
  workload : Workload α
  planner : Planner α
  config : SelectionConfig α

namespace Designer

variable {α : Type}

/-- The designer that chooses among the given candidates. -/
def ofIndexes (w : Workload α) (indexes : List Index) (costs : CostModel α)
    (planning : PlanningConfig α) (selection : SelectionConfig α) : Designer α :=
  ⟨w, .ofIndexes indexes costs planning, selection⟩

/-- The designer that chooses among the views of the workload's queries. -/
def ofViews (w : Workload α) (costs : CostModel α) (planning : PlanningConfig α)
    (selection : SelectionConfig α) : Except (DesignError α) (Designer α) :=
  match w.views with
  | .ok views => .ok (ofIndexes w views costs planning selection)
  | .error e => .error (.model e)

variable [Scalar α] [Rendered α]

/-- The plans of each query, in order. -/
def trees (d : Designer α) : List (Except (PlanningError α) (PlanTree α)) :=
  d.workload.queries.map d.planner.plan

/-- What each write does to each index that it modifies. -/
def maintenance (d : Designer α) : List (Maintenance α) :=
  d.workload.updates.flatMap d.planner.maintenance

/-- The costs of the support queries of a maintained index. -/
def maintenanceCosts (d : Designer α) (m : Maintenance α) :
    Except (PlanningError α) (MaintenanceCosts α) := do
  let ofTree := StatementCosts.ofTree d.config.costTolerance
  match m.support with
  | none => return ⟨m, none⟩
  | some trees => return ⟨m, some (← trees.mapM ofTree)⟩

/-- The costs of all queries and of all maintenance. -/
def costs (d : Designer α) :
    Except (PlanningError α) (List (StatementCosts α) × List (MaintenanceCosts α)) := do
  let queries ← d.trees.mapM fun tree => do
    StatementCosts.ofTree d.config.costTolerance (← tree)
  let maintenance ← d.maintenance.mapM d.maintenanceCosts
  return (queries, maintenance)

/-- The problem of choosing indexes for the workload. -/
def problem (d : Designer α) : Except (DesignError α) (SelectionProblem α) := do
  let (queries, maintenance) ← d.costs.mapError .planning
  (SelectionProblem.build d.planner.pool queries maintenance d.config).mapError .selection

/-- The design that a solver finds for the workload. -/
@[inline] def designWith (d : Designer α) (solver : Solver α) :
    Except (DesignError α) (Design α) := do
  let problem ← d.problem
  (problem.solve solver).mapError .selection

/-- The design of least cost, found by branch and bound. -/
def design (d : Designer α) : Except (DesignError α) (Design α) :=
  d.designWith (BranchAndBound.ofLimit d.config.maxNodes).solve

end Designer

end IndexDesign
