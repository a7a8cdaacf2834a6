import IndexDesign.Config.Fault
import IndexDesign.ModelError
import IndexDesign.Selection.Error

/-! # Design errors — every way in which designing a schema fails

    A design error is an error of one of the parts.  Its message is the
    message of the part's error under the heading of the part. -/

namespace IndexDesign

/-- The part of the designer that an error comes from. -/
inductive ErrorSource where
  | model
  | planning
  | selection
  | configuration
  | file
  deriving DecidableEq, Repr

/-- A message under the heading of the part it comes from. -/
def ErrorSource.describe (source : ErrorSource) (message : String) : String :=
  let heading := match source with
    | .model => "模型错误"
    | .planning => "计划错误"
    | .selection => "优化错误"
    | .configuration => "配置错误"
    | .file => "IO错误"
  heading ++ ": " ++ message

/-- Why designing a schema fails. -/
inductive DesignError (α : Type) where
  | model (error : ModelError)
  | planning (error : PlanningError α)
  | selection (error : SelectionError α)
  | configuration (fault : ConfigFault α)
  /-- A file cannot be read. -/
  | file

/-- The message of an error. -/
def DesignError.message {α : Type} [Rendered α] : DesignError α → String
  | model error => ErrorSource.model.describe error.message
  | planning error => ErrorSource.planning.describe error.message
  | selection error => ErrorSource.selection.describe error.message
  | configuration fault => ErrorSource.configuration.describe fault.message
  | file => ErrorSource.file.describe "文件不存在"

end IndexDesign
