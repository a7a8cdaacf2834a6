import IndexDesign.Plan.Error
import IndexDesign.ZeroOne.Error

/-! # Selection errors — why no set of indexes is chosen -/

namespace IndexDesign

/-- Which rule for designs a chosen design breaks. -/
inductive DesignFault (α : Type) where
  /-- No plan of a query is chosen. -/
  | planMissing (statement : String)
  /-- The chosen indexes are larger than the budget. -/
  | overBudget (size budget : α)
  /-- One query has two plans. -/
  | planRepeated (statement : String)
  /-- An index that is not chosen is maintained. -/
  | maintainsUnselected (statement index : String)
  /-- A plan looks up an index that is not chosen. -/
  | usesUnselected (plan index : String)

/-- The message of a fault. -/
def DesignFault.message {α : Type} [Rendered α] : DesignFault α → String
  | planMissing statement => s!"语句 {statement} 没有选中计划"
  | overBudget size budget =>
    let total := Rendered.text size
    let limit := Rendered.text budget
    s!"选中索引总大小 {total} 超出预算 {limit}"
  | planRepeated statement => s!"语句 {statement} 选中了多个计划"
  | maintainsUnselected statement index => s!"维护计划 {statement} 针对未选中的索引 {index}"
  | usesUnselected plan index => s!"计划 {plan} 使用了未选中的索引 {index}"

/-- Why choosing indexes fails. -/
inductive SelectionError (α : Type) where
  /-- No design fits the budget. -/
  | noSolution (budget : Option α)
  /-- The solver gave up. -/
  | solverLimit (nodes : Nat)
  /-- A statement cannot be planned. -/
  | planning (error : PlanningError α)
  /-- The solver's assignment is not a design. -/
  | internal (fault : DesignFault α)

namespace SelectionError

variable {α : Type} [Rendered α]

/-- The message that a design is inconsistent for the given reason. -/
def internalMessage (reason : String) : String := s!"内部优化错误: {reason}"

/-- The message of an error. -/
def message : SelectionError α → String
  | noSolution budget =>
    let limit := budget.elim "无限制" Rendered.text
    s!"空间预算 {limit} 下无可行解"
  | solverLimit nodes => s!"求解器在 {nodes} 个节点内未找到可行解"
  | planning error => error.message
  | internal fault => internalMessage fault.message

end SelectionError

end IndexDesign
