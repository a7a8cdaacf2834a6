import IndexDesign.Decimal.Text

/-! # Configuration faults — why a configuration is refused -/

namespace IndexDesign

/-- Why a configuration is refused. -/
inductive ConfigFault (α : Type) where
  /-- The space budget is negative or not a number. -/
  | illegalBudget (budget : α)
  /-- The cost ratio is below one or not a number. -/
  | illegalRatio (ratio : α)
  /-- A unit cost is negative or not a number. -/
  | illegalUnitCost (name : String) (cost : α)
  /-- The cost tolerance is negative or not a number. -/
  | illegalTolerance (tolerance : α)
  /-- The text is no configuration, or the configuration cannot be written as a text. -/
  | malformedText

/-- The message of a fault. -/
def ConfigFault.message {α : Type} [Rendered α] : ConfigFault α → String
  | illegalBudget budget => "空间预算非法: " ++ Rendered.text budget
  | illegalRatio ratio => "代价比必须不小于 1: " ++ Rendered.text ratio
  | illegalUnitCost name cost => s!"单位代价 {name} 非法: " ++ Rendered.text cost
  | illegalTolerance tolerance => "代价容差非法: " ++ Rendered.text tolerance
  | malformedText => "配置文本非法"

end IndexDesign
