import IndexDesign.Plan.Maintenance

/-! # Attribution — what a statement's plans cost on each index

    A plan is cut into runs: each begins with the lookup of an index and goes
    on to the next lookup, and its cost counts for that index.  A final sort of
    a run costs no index anything.

    All plans of a statement have to agree on the cost of an index.  Plans are
    taken in the order of their costs; one that disagrees with those before is
    dropped, or is an error where neither plan filters and both take the same
    steps up to the index, since then the prices themselves contradict. -/

namespace IndexDesign

/-- A part of a plan that belongs to an index. -/
structure PlanRun (α : Type) where
  index : Index
  /-- The position of the first step in the plan. -/
  start : Nat
  steps : List (Step α)

namespace PlanRun

variable {α : Type}

/-- The position after the last step. -/
def stop (r : PlanRun α) : Nat := r.start + r.steps.length

/-- The steps less a sort at the end. -/
def charged (r : PlanRun α) : List (Step α) :=
  if r.steps.getLast?.any (·.isSort) then r.steps.dropLast else r.steps

/-- The cost of the run for its index. -/
def cost [Scalar α] (r : PlanRun α) : α := Scalar.sum (r.charged.map (·.cost))

end PlanRun

/-- The steps before the first lookup, and for each lookup its index and the steps from it up to
    the next. -/
def splitAtLookups {α : Type} : List (Step α) → List (Step α) × List (Index × List (Step α))
  | [] => ([], [])
  | step :: rest =>
    let (front, parts) := splitAtLookups rest
    match step.lookedUp? with
    | some index => ([], (index, step :: front) :: parts)
    | none => (step :: front, parts)

/-- The parts of a plan as runs, the first of which starts at the given position. -/
def runsFrom {α : Type} (start : Nat) : List (Index × List (Step α)) → List (PlanRun α)
  | [] => []
  | (index, steps) :: rest => ⟨index, start, steps⟩ :: runsFrom (start + steps.length) rest

namespace Plan

variable {α : Type}

/-- The runs of a plan; steps before the first lookup belong to the first run. -/
def runs (p : Plan α) : List (PlanRun α) :=
  match splitAtLookups p.steps with
  | (_, []) => []
  | (front, (index, steps) :: parts) => runsFrom 0 ((index, front ++ steps) :: parts)

/-- The indexes of the runs. -/
def lookedUp (p : Plan α) : List Index := p.runs.map (·.index)

/-- The cost of all runs times the weight of the query. -/
def attributedCost [Scalar α] (p : Plan α) : α :=
  Scalar.sum (p.runs.map (·.cost)) * p.query.weight

end Plan

/-- What a statement costs on an index, by the run of a plan that says so first. -/
structure CostEntry (α : Type) where
  run : PlanRun α
  plan : Plan α

instance {α : Type} : Keyed (CostEntry α) where
  key e := [e.run.index.key]

/-- The weighted cost of the entry. -/
def CostEntry.cost {α : Type} [Scalar α] (e : CostEntry α) : α :=
  e.run.cost * e.plan.query.weight

/-- The plans of a query that agree on what its indexes cost. -/
structure StatementCosts (α : Type) where
  query : Query α
  plans : List (Plan α)
  /-- The number of plans dropped since they disagree. -/
  pruned : Nat

namespace StatementCosts

variable {α : Type}

/-- The entries of a plan, one for each run. -/
def entriesOf (p : Plan α) : List (CostEntry α) := p.runs.map fun run => ⟨run, p⟩

/-- The cost of each index that the plans look up, in the order of keys. -/
def table (c : StatementCosts α) : SortedSet (CostEntry α) :=
  SortedSet.extend ∅ (c.plans.flatMap entriesOf)

/-- The entry of an index: that of the first plan which looks it up. -/
def entryOf? (c : StatementCosts α) (index : Index) : Option (CostEntry α) :=
  c.plans.findSome? fun p => (entriesOf p).find? (·.run.index.key == index.key)

/-- The plans that pass a test. -/
def retain (c : StatementCosts α) (keep : Plan α → Bool) : StatementCosts α :=
  { c with plans := c.plans.filter keep }

variable [Scalar α]

/-- What the statement costs on an index. -/
def costFor? (c : StatementCosts α) (index : Index) : Option α := (c.entryOf? index).map (·.cost)

/-- Whether two costs of an index agree: they lie no further apart than `tolerance` times the
    first, or than `tolerance` where the first is less than one. -/
def agree (tolerance existing found : α) : Bool :=
  decide (Scalar.abs (existing - found)
    ≤ tolerance * Scalar.max (Scalar.abs existing) Scalar.one)

/-- The first entry of a plan that disagrees with the entry which its index has, behind that. -/
def conflict? (tolerance : α) (c : StatementCosts α) (p : Plan α) :
    Option (CostEntry α × CostEntry α) :=
  (entriesOf p).findSome? fun found =>
    (c.entryOf? found.run.index).bind fun existing =>
      if agree tolerance existing.cost found.cost then none else some (existing, found)

/-- Whether a disagreement lies in the prices: neither plan filters and both take the same
    steps before the run. -/
def isContradiction (existing found : CostEntry α) : Bool :=
  !existing.plan.hasFilter && !found.plan.hasFilter
    && existing.plan.steps.take existing.run.start == found.plan.steps.take found.run.start

/-- The costs with one more plan taken into account. -/
def absorb (tolerance : α) (c : StatementCosts α) (p : Plan α) :
    Except (PlanningError α) (StatementCosts α) :=
  match c.conflict? tolerance p with
  | none => .ok { c with plans := c.plans ++ [p] }
  | some (existing, found) =>
    if isContradiction existing found then
      .error (.inconsistentCost c.query.text found.run.index.key existing.cost found.cost)
    else .ok { c with pruned := c.pruned + 1 }

/-- The plans of a tree that agree on what its indexes cost, cheapest first. -/
def ofTree (tolerance : α) (t : PlanTree α) : Except (PlanningError α) (StatementCosts α) :=
  (t.plans.mergeSort fun p q => Scalar.totalLE p.cost q.cost).foldlM (absorb tolerance)
    ⟨t.query, [], 0⟩

end StatementCosts

end IndexDesign
