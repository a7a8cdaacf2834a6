import IndexDesign.Decimal.Text

/-! # Planning errors — why a statement has no plans or no consistent costs -/

namespace IndexDesign

/-- Which rule for complete plans a plan breaks. -/
inductive PlanFault where
  /-- An index of the plan groups by more than the query does. -/
  | surplusGrouping (plan index : String)
  /-- A step in memory comes after the plan has aggregated. -/
  | workAfterAggregation (plan step : String)
  /-- Work remains after the last step. -/
  | unanswered (plan state : String)
  deriving DecidableEq, Repr

/-- The message of a fault. -/
def PlanFault.message : PlanFault → String
  | surplusGrouping plan index => s!"计划 {plan} 中的索引 {index} 暴露了多余的分组字段"
  | workAfterAggregation plan step => s!"计划 {plan} 在聚合之后执行了 {step}"
  | unanswered plan state => s!"计划 {plan} 未完整回答语句:\n{state}"

/-- Why planning a statement fails. -/
inductive PlanningError (α : Type) where
  /-- No plan answers the statement; `tree` shows how far the search came. -/
  | noPlanFound (statement tree : String)
  /-- Two plans without filters give an index different costs after the same steps. -/
  | inconsistentCost (statement index : String) (existing found : α)
  /-- A plan breaks a rule for complete plans. -/
  | invalidPlan (fault : PlanFault)

namespace PlanningError

variable {α : Type} [Rendered α]

/-- The message that a plan is invalid for the given reason. -/
def invalidPlanMessage (reason : String) : String := s!"计划验证失败: {reason}"

/-- The message of an error. -/
def message : PlanningError α → String
  | noPlanFound statement tree => s!"语句无可用计划: {statement}\n最终搜索树:\n{tree}"
  | inconsistentCost statement index existing found =>
    let first := Rendered.text existing
    let second := Rendered.text found
    s!"代价不一致: 语句 {statement} 在索引 {index} 上的代价 {first} 与 {second} 不符"
  | invalidPlan fault => invalidPlanMessage fault.message

end PlanningError

end IndexDesign
