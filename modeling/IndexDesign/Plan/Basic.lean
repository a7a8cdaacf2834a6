import IndexDesign.Plan.Error
import IndexDesign.Plan.Step

/-! # Plans — steps that answer a query

    A plan is the steps from the start of a query to a state, with that state.
    Its cost is the sum of the costs of its steps. -/

namespace IndexDesign

/-- The steps that lead from the start of a query to a state. -/
structure Plan (α : Type) where
  steps : List (Step α)
  state : PlanState α

namespace Plan

variable {α : Type}

/-- The query that the plan answers. -/
def query (p : Plan α) : Query α := p.state.query

/-- The estimated number of rows of the answer. -/
def rows (p : Plan α) : α := p.state.rows

/-- The indexes that the plan uses, in order. -/
def indexes (p : Plan α) : List Index := p.steps.filterMap (·.index?)

/-- Whether the plan uses the index. -/
def usesIndex (p : Plan α) (index : Index) : Bool := p.indexes.any (· == index)

/-- Whether the plan filters in memory. -/
def hasFilter (p : Plan α) : Bool := p.steps.any (·.isFilter)

/-- The steps in words. -/
def text (p : Plan α) : String := " -> ".intercalate (p.steps.map (·.text))

variable [Scalar α]

/-- The cost of the steps. -/
def cost (p : Plan α) : α := Scalar.sum (p.steps.map (·.cost))

/-- The cost of the steps times the weight of the query. -/
def weightedCost (p : Plan α) : α := p.cost * p.query.weight

/-- Whether two plans take the same steps at costs that differ by less than a unit gap. -/
def sameAs (p q : Plan α) : Bool :=
  p.steps == q.steps && decide (Scalar.abs (p.cost - q.cost) < Scalar.unitGap)

/-! ## Rules for complete plans -/

/-- The first index of a plan that groups by more than the query does. -/
def surplusGrouping? (p : Plan α) : Option Index :=
  (p.steps.filterMap (·.lookedUp?)).find? fun index => !index.groupBy.isSubset p.query.groupBy

/-- The first filter, sort or limit after a step that aggregates, where `aggregated` says
    whether one has come before. -/
def workAfterAggregation? (aggregated : Bool) : List (Step α) → Option (Step α)
  | [] => none
  | step :: rest =>
    let inMemory := step.kind matches .filter .. | .sort _ | .limit _
    if aggregated && inMemory then some step
    else workAfterAggregation? (aggregated || step.isAggregating) rest

/-- The first rule for complete plans that the plan breaks. -/
def fault? [Rendered α] (p : Plan α) : Option PlanFault :=
  match p.surplusGrouping?, workAfterAggregation? false p.steps with
  | some index, _ => some (.surplusGrouping p.text index.key)
  | none, some step => some (.workAfterAggregation p.text step.text)
  | none, none => if p.state.isAnswered then none else some (.unanswered p.text p.state.text)

/-- Whether the plan keeps all rules for complete plans, or the first that it breaks. -/
def validate [Rendered α] (p : Plan α) : Except (PlanningError α) Unit :=
  match p.fault? with
  | some fault => .error (.invalidPlan fault)
  | none => .ok ()

end Plan

end IndexDesign
