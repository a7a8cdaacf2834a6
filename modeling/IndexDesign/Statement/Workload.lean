import IndexDesign.Statement.Update
import IndexDesign.Statement.View

/-! # Workloads — a model and the statements that run on it

    Adding a query to a workload gives it a handle of its own.  Adding the same
    statement again keeps its handle, so that the two entries are known to be
    one statement. -/

namespace IndexDesign

/-- An entry of a workload. -/
inductive Statement (α : Type) where
  | read (query : Query α)
  | write (update : Update α)

namespace Statement

variable {α : Type}

/-- The text of the statement. -/
def text : Statement α → String
  | read q => q.text
  | write u => u.text

/-- The weight of the statement. -/
def weight : Statement α → α
  | read q => q.weight
  | write u => u.weight

/-- Whether the statement reads. -/
def isQuery : Statement α → Bool
  | read _ => true
  | write _ => false

end Statement

/-- A model with its statements, in order. -/
structure Workload (α : Type) where
  model : Model
  statements : List (Statement α)

namespace Workload

variable {α : Type}

/-- The workload of a model without statements. -/
def ofModel (m : Model) : Workload α := ⟨m, []⟩

/-- The workload with one more entry, which is a statement of its own. -/
def add (w : Workload α) : Statement α → Workload α
  | .read q =>
    let registered := { q with handle := w.statements.length + 1 }
    { w with statements := w.statements ++ [.read registered] }
  | .write u => { w with statements := w.statements ++ [.write u] }

/-- The workload with the entry at a position entered once more. -/
def addAgain (w : Workload α) (position : Nat) : Workload α :=
  { w with statements := w.statements ++ w.statements[position]?.toList }

/-- The statements that read. -/
def queries (w : Workload α) : List (Query α) :=
  w.statements.filterMap fun
    | .read q => some q
    | .write _ => none

/-- The statements that write. -/
def updates (w : Workload α) : List (Update α) :=
  w.statements.filterMap fun
    | .read _ => none
    | .write u => some u

/-- The views of the queries, in the order of their keys, each once. -/
def views (w : Workload α) : Except ModelError (List Index) :=
  return Index.pool (← w.queries.mapM (·.view))

end Workload

end IndexDesign
