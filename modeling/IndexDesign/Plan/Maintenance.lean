import IndexDesign.Plan.Search
import IndexDesign.Statement.Update

/-! # Maintenance — what a write does to each index it modifies

    A write finds the entries of an index by support queries, removes the old
    entries and adds the new ones.  Where a support query cannot be planned the
    index cannot be maintained and must not be chosen. -/

namespace IndexDesign

/-- What a write does to one index. -/
structure Maintenance (α : Type) where
  statement : Update α
  index : Index
  /-- The plans of the support queries; `none` where one of them has none. -/
  support : Option (List (PlanTree α))
  /-- The removal and addition of entries. -/
  steps : List (Step α)

namespace Maintenance

variable {α : Type} [Scalar α]

/-- Whether the index can be maintained. -/
def isSupported (m : Maintenance α) : Bool := m.support.isSome

/-- The cost of removing and adding entries. -/
def cost (m : Maintenance α) : α := Scalar.sum (m.steps.map (·.cost))

/-- The cost of removing and adding entries times the weight of the write. -/
def weightedCost (m : Maintenance α) : α := m.cost * m.statement.weight

end Maintenance

namespace Planner

variable {α : Type} [Scalar α] [Rendered α]

/-- The plans of the support queries of a write for an index; `none` where there are no such
    queries or one of them has no plan. -/
def support? (p : Planner α) (u : Update α) (index : Index) : Option (List (PlanTree α)) := do
  let queries ← u.supportQueries index
  queries.mapM fun q => (p.plan q).toOption

/-- The estimated number of entries that a write touches: one for an insertion, otherwise as
    many as the best plan of the first support query finds. -/
def touchedRows (u : Update α) (support : Option (List (PlanTree α))) : α :=
  match u.kind, support with
  | .insert, _ | _, none | _, some [] => Scalar.one
  | _, some (first :: _) =>
    Scalar.max ((first.minPlan?.map (·.rows)).getD Scalar.one) Scalar.one

/-- The steps by which a write changes an index. -/
def maintenanceSteps (p : Planner α) (u : Update α) (index : Index) (rows : α) :
    List (Step α) :=
  match u.kind with
  | .insert => [.insert p.costs index rows]
  | .delete => [.delete p.costs index rows]
  | .update => [.delete p.costs index rows, .insert p.costs index rows]

/-- What a write does to an index. -/
def maintain (p : Planner α) (u : Update α) (index : Index) : Maintenance α :=
  let support := p.support? u index
  ⟨u, index, support, p.maintenanceSteps u index (touchedRows u support)⟩

/-- What a write does to each candidate that it modifies. -/
def maintenance (p : Planner α) (u : Update α) : List (Maintenance α) :=
  (p.pool.filter u.modifies).map (p.maintain u)

end Planner

end IndexDesign
