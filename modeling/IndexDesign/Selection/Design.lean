import IndexDesign.Plan.Maintenance
import IndexDesign.Selection.Error

/-! # Designs — chosen indexes with the plans that use them

    A design answers every query by one plan over its indexes, says how every
    write maintains them, and fits a budget.  `fault?` finds the first rule
    that a design breaks. -/

namespace IndexDesign

/-- How a write maintains a chosen index. -/
structure UpdatePlan (α : Type) where
  statement : Update α
  index : Index
  /-- The plans of the support queries. -/
  support : List (Plan α)
  steps : List (Step α)

namespace UpdatePlan

variable {α : Type}

/-- The support plans and the steps in words. -/
def text (u : UpdatePlan α) : String :=
  " -> ".intercalate (u.support.map (·.text) ++ u.steps.map (·.text))

/-- The weighted cost of steps and support plans. -/
def cost [Scalar α] (u : UpdatePlan α) : α :=
  Scalar.sum (u.steps.map (·.cost)) * u.statement.weight
    + Scalar.sum (u.support.map (·.weightedCost))

end UpdatePlan

/-- Chosen indexes and the plans that use them. -/
structure Design (α : Type) where
  /-- The chosen indexes, in the order of their keys. -/
  indexes : List Index
  /-- One plan for each query of the workload, in order. -/
  plans : List (Plan α)
  updates : List (UpdatePlan α)
  /-- The most bytes that the indexes may take. -/
  budget : Option α
  /-- The cost that the solver reports. -/
  objective : α

namespace Design

variable {α : Type}

/-- Whether the index is chosen. -/
def isSelected (d : Design α) (index : Index) : Bool := d.indexes.any (· == index)

/-- The plan of a query: of the first query that is the given one or has its text. -/
def planFor? (d : Design α) (q : Query α) : Option (Plan α) :=
  d.plans.find? fun p => p.query.handle == q.handle || p.query.text == q.text

variable [Scalar α]

/-- The weighted cost of all plans. -/
def totalCost (d : Design α) : α :=
  Scalar.sum (d.plans.map (·.weightedCost)) + Scalar.sum (d.updates.map (·.cost))

/-- The size of all chosen indexes. -/
def totalSize (d : Design α) : α := Scalar.sum (d.indexes.map (·.size))

/-- The cost of building all chosen indexes. -/
def loadCost (costs : CostModel α) (d : Design α) : α := Scalar.sum (d.indexes.map costs.load)

/-! ## Rules for designs -/

/-- The fault that the indexes exceed the budget by more than rounding explains. -/
def overBudget? (d : Design α) : Option (DesignFault α) :=
  d.budget.bind fun budget =>
    if budget * (Scalar.one + Scalar.tolerance) < d.totalSize then
      some (.overBudget d.totalSize budget)
    else none

/-- The fault that a plan uses an index which is not chosen. -/
def usesUnselected? (d : Design α) (p : Plan α) : Option (DesignFault α) :=
  (p.indexes.find? (!d.isSelected ·)).map fun index => .usesUnselected p.text index.key

/-- The first fault of the query plans; `before` lists the plans that come before. -/
def planFault? (d : Design α) (before : List (Plan α)) : List (Plan α) → Option (DesignFault α)
  | [] => none
  | p :: rest =>
    if before.any (·.query.handle == p.query.handle) then some (.planRepeated p.query.text)
    else (d.usesUnselected? p).or (d.planFault? (p :: before) rest)

/-- The fault of an update plan. -/
def updateFault? (d : Design α) (u : UpdatePlan α) : Option (DesignFault α) :=
  if d.isSelected u.index then u.support.findSome? d.usesUnselected?
  else some (.maintainsUnselected u.statement.text u.index.key)

/-- The first rule for designs that the design breaks. -/
def fault? (d : Design α) : Option (DesignFault α) :=
  (d.overBudget?.or (d.planFault? [] d.plans)).or (d.updates.findSome? d.updateFault?)

/-- Whether the design keeps all rules, or the first that it breaks. -/
def validate (d : Design α) : Except (SelectionError α) Unit :=
  match d.fault? with
  | some fault => .error (.internal fault)
  | none => .ok ()

/-- The design in words: its totals, its indexes, and a plan for each statement. -/
def text [Rendered α] (d : Design α) : String :=
  let size := Rendered.fixed 0 d.totalSize
  let cost := Rendered.fixed 4 d.totalCost
  let totals := s!"选中索引 {d.indexes.length} 个，总大小 {size}，总代价 {cost}\n"
  let indexes := d.indexes.map fun i => s!"  {i.key} {i.descriptor}\n"
  let plans := d.plans.map fun p => s!"{p.query.text}\n  {p.text}\n"
  let updates := d.updates.map fun u => s!"{u.statement.text}\n  {u.text}\n"
  "".intercalate (totals :: indexes ++ plans ++ updates)

end Design

end IndexDesign
