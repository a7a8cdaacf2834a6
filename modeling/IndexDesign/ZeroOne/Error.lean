/-! # Solver errors — why a zero-one program gets no assignment -/

namespace IndexDesign

/-- Why a solver returns no assignment. -/
inductive SolverError where
  /-- No assignment satisfies the constraints. -/
  | infeasible
  /-- The solver visited as many nodes as allowed and found no assignment. -/
  | nodeLimit (nodes : Nat)
  deriving DecidableEq, Repr

/-- The message of a solver error. -/
def SolverError.message : SolverError → String
  | infeasible => "问题不可行"
  | nodeLimit nodes => s!"超过节点上限: {nodes}"

end IndexDesign
