import IndexDesign.Config.Fault
import IndexDesign.Cost.Model

/-! # Configurations — bounds on plans, the budget, prices and logging -/

namespace IndexDesign

/-- Bounds on the plans of a statement. -/
structure PlanningConfig (α : Type) where
  /-- The most lookups that a plan may have. -/
  maxLookups : Option Nat := none
  /-- How many times dearer than the cheapest a plan may be. -/
  costRatio : Option α := none
  /-- The number of candidates from which they are checked in parallel. -/
  parallelThreshold : Nat := 64

/-- How indexes are chosen. -/
structure SelectionConfig (α : Type) where
  /-- The most bytes that the chosen indexes may take. -/
  spaceBudget : Option α
  /-- How far the costs of one index may lie apart within a statement. -/
  costTolerance : α
  /-- The most nodes that the solver visits. -/
  maxNodes : Nat
  /-- Whether indexes above the budget are left out from the start. -/
  pruneOversized : Bool

/-- Where and how a log is kept. -/
structure LogConfig where
  level : String := "info"
  directory : String := "logs"
  file : String := "schema_advisor"
  maxFileSize : Nat := 100 * 1024 * 1024
  maxFiles : Nat := 5
  deriving DecidableEq, Repr

/-- The whole configuration. -/
structure Config (α : Type) where
  planning : PlanningConfig α
  selection : SelectionConfig α
  cost : UnitCosts α
  log : LogConfig

variable {α : Type} [Scalar α]

/-- A selection without budget. -/
def SelectionConfig.standard : SelectionConfig α where
  spaceBudget := none
  costTolerance := Scalar.decimal 1 3
  maxNodes := 1000000
  pruneOversized := true

namespace Config

/-- The configuration where nothing is said. -/
def standard : Config α where
  planning := {}
  selection := .standard
  cost := .standard
  log := {}

/-- The configuration with another budget. -/
def withSpaceBudget (c : Config α) (budget : α) : Config α :=
  { c with selection := { c.selection with spaceBudget := some budget } }

/-- The configuration with another cost ratio. -/
def withCostRatio (c : Config α) (ratio : α) : Config α :=
  { c with planning := { c.planning with costRatio := some ratio } }

/-- The configuration with another bound on lookups. -/
def withMaxLookups (c : Config α) (lookups : Nat) : Config α :=
  { c with planning := { c.planning with maxLookups := some lookups } }

/-- The first value that is out of range; a value that is not a number is in no range. -/
def fault? (c : Config α) : Option (ConfigFault α) :=
  let outside (low : α) (x : Option α) : Option α := x.filter fun x => !decide (low ≤ x)
  let budget := (outside Scalar.zero c.selection.spaceBudget).map ConfigFault.illegalBudget
  let ratio := (outside Scalar.one c.planning.costRatio).map ConfigFault.illegalRatio
  let cost := c.cost.firstNegative?.map fun (name, cost) => ConfigFault.illegalUnitCost name cost
  let tolerance :=
    (outside Scalar.zero (some c.selection.costTolerance)).map ConfigFault.illegalTolerance
  budget.or (ratio.or (cost.or tolerance))

/-- Accepts a configuration whose values are all in range. -/
def validate (c : Config α) : Except (ConfigFault α) Unit :=
  match c.fault? with
  | some fault => .error fault
  | none => .ok ()

end Config

instance : BEq (PlanningConfig α) where
  beq a b := a.maxLookups == b.maxLookups && a.costRatio == b.costRatio
    && a.parallelThreshold == b.parallelThreshold

instance : BEq (SelectionConfig α) where
  beq a b := a.spaceBudget == b.spaceBudget && a.costTolerance == b.costTolerance
    && a.maxNodes == b.maxNodes && a.pruneOversized == b.pruneOversized

instance : BEq (UnitCosts α) where
  beq a b := a.named.map (·.2) == b.named.map (·.2)

instance : BEq (Config α) where
  beq a b := a.planning == b.planning && a.selection == b.selection && a.cost == b.cost
    && a.log == b.log

end IndexDesign
