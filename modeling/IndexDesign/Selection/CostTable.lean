import IndexDesign.Selection.Attribution

/-! # Cost tables — attribution with a table that is kept

    The costs of a statement on its indexes can be kept in a table while plans
    are taken into account.  A row has the weighted cost of an index and the
    position of the plan that gave it first.  A plan is compared with the rows
    run by run; one that is kept adds the rows which are not there.  Where
    plans are taken out afterwards, the table is made anew from those left. -/

namespace IndexDesign

/-- A row of the table. -/
structure CostRow (α : Type) where
  index : Index
  /-- The weighted cost. -/
  cost : α
  /-- The position of the plan that gave the cost. -/
  plan : Nat

instance {α : Type} : Keyed (CostRow α) where
  key r := [r.index.key]

/-- The plans of a query that agree on what its indexes cost, with the table of these costs. -/
structure CostLedger (α : Type) where
  query : Query α
  plans : List (Plan α)
  table : SortedSet (CostRow α)
  /-- The number of plans dropped since they disagree. -/
  pruned : Nat

namespace CostLedger

variable {α : Type} [Scalar α]

/-- What the plan at a position costs on its indexes. -/
def rowsOf (weight : α) (position : Nat) (p : Plan α) : List (CostRow α) :=
  p.runs.map fun run => ⟨run.index, run.cost * weight, position⟩

/-- The row of an index. -/
def row? (c : CostLedger α) (index : Index) : Option (CostRow α) := c.table.find? [index.key]

/-- The first run of a plan whose cost disagrees with the row that its index has, behind that. -/
def conflict? (tolerance : α) (c : CostLedger α) (p : Plan α) : Option (CostRow α × PlanRun α) :=
  p.runs.findSome? fun run =>
    (c.row? run.index).bind fun row =>
      if StatementCosts.agree tolerance row.cost (run.cost * c.query.weight) then none
      else some (row, run)

/-- Whether a disagreement lies in the prices: neither plan filters and both take the same steps
    before they come to the index. -/
def escalates (existing p : Plan α) (run : PlanRun α) : Bool :=
  if existing.hasFilter || p.hasFilter then false
  else match existing.runs.find? (·.index.key == run.index.key) with
    | some other => existing.steps.take other.start == p.steps.take run.start
    | none => false

/-- The costs with one more plan, which is kept. -/
def add (c : CostLedger α) (p : Plan α) : CostLedger α :=
  { c with
    plans := c.plans ++ [p]
    table := c.table.extend (rowsOf c.query.weight c.plans.length p) }

/-- The costs with one more plan taken into account. -/
def absorb (tolerance : α) (c : CostLedger α) (p : Plan α) :
    Except (PlanningError α) (CostLedger α) :=
  match c.conflict? tolerance p with
  | none => .ok (c.add p)
  | some (row, run) =>
    if c.plans[row.plan]?.any (escalates · p run) then
      .error (.inconsistentCost c.query.text run.index.key row.cost (run.cost * c.query.weight))
    else .ok { c with pruned := c.pruned + 1 }

/-- The plans of a list that agree on what its indexes cost, cheapest first. -/
def ofPlans (tolerance : α) (q : Query α) (plans : List (Plan α)) :
    Except (PlanningError α) (CostLedger α) :=
  (plans.mergeSort fun p p' => Scalar.totalLE p.cost p'.cost).foldlM (absorb tolerance)
    ⟨q, [], ∅, 0⟩

/-- The table of plans that are all kept. -/
def tableOf (weight : α) (plans : List (Plan α)) : SortedSet (CostRow α) :=
  SortedSet.extend ∅ (plans.zipIdx.flatMap fun (p, position) => rowsOf weight position p)

/-- The plans that pass a test, with a table made for them. -/
def retain (c : CostLedger α) (keep : Plan α → Bool) : CostLedger α :=
  { c with
    plans := c.plans.filter keep
    table := tableOf c.query.weight (c.plans.filter keep) }

/-- The costs without the table. -/
def costs (c : CostLedger α) : StatementCosts α := ⟨c.query, c.plans, c.pruned⟩

end CostLedger

end IndexDesign
