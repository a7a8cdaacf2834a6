import IndexDesign.Cost.Model
import IndexDesign.Cost.Selectivity
import IndexDesign.Plan.Rejection
import IndexDesign.Plan.State

/-! # Plan steps — one piece of work and what it costs

    A step looks up an index, works in memory, or maintains an index.  Work in
    memory (filter, sort, limit, aggregate) takes work out of a state or is
    rejected; once a branch has aggregated, nothing more is done in memory. -/

namespace IndexDesign

/-- What a step does. -/
inductive StepKind (α : Type) where
  /-- The start of every plan, which does nothing. -/
  | root
  /-- Reads an index by a number of partition lookups. -/
  | lookup (index : Index) (lookups : α)
  /-- Tests rows against equality and range conditions. -/
  | filter (eq range : List Field)
  | sort (fields : List Field)
  /-- Cuts rows off. -/
  | limit (rows : Nat)
  | aggregate (aggregates : List Aggregate) (groupBy : List Field)
  /-- Adds entries to an index. -/
  | insert (index : Index)
  /-- Removes entries from an index. -/
  | delete (index : Index)

/-- A piece of work with its cost and the rows it leaves. -/
structure Step (α : Type) where
  kind : StepKind α
  cost : α
  rows : α

namespace Step

variable {α : Type} [Scalar α]

/-- The start of the plans from a state. -/
def root (s : PlanState α) : Step α := ⟨.root, Scalar.zero, s.rows⟩

/-- Adding rows to an index. -/
def insert (costs : CostModel α) (index : Index) (rows : α) : Step α :=
  ⟨.insert index, costs.insert index rows, rows⟩

/-- Removing rows from an index. -/
def delete (costs : CostModel α) (index : Index) (rows : α) : Step α :=
  ⟨.delete index, costs.delete index rows, rows⟩

/-- The index that the step reads or maintains. -/
def index? (step : Step α) : Option Index :=
  match step.kind with
  | .lookup index _ | .insert index | .delete index => some index
  | _ => none

/-- The index that the step looks up. -/
def lookedUp? (step : Step α) : Option Index :=
  match step.kind with
  | .lookup index _ => some index
  | _ => none

def isRoot (step : Step α) : Bool := step.kind matches .root

def isLookup (step : Step α) : Bool := step.kind matches .lookup ..

def isFilter (step : Step α) : Bool := step.kind matches .filter ..

def isSort (step : Step α) : Bool := step.kind matches .sort _

/-- Whether the step aggregates, in memory or by its index. -/
def isAggregating (step : Step α) : Bool :=
  match step.kind with
  | .aggregate .. => true
  | .lookup index _ => index.isAggregating
  | _ => false

/-- Whether two lists name the same fields in the same order. -/
def sameFields (fs gs : List Field) : Bool := fs.map key == gs.map key

/-- Whether two steps do the same: indexes are compared by descriptor, fields by name and
    numbers by their equality. -/
def sameKind : StepKind α → StepKind α → Bool
  | .root, .root => true
  | .lookup i m, .lookup j n => i == j && m == n
  | .filter eq range, .filter eq' range' => sameFields eq eq' && sameFields range range'
  | .sort fs, .sort gs => sameFields fs gs
  | .limit m, .limit n => m == n
  | .aggregate as fs, .aggregate bs gs => as.map key == bs.map key && sameFields fs gs
  | .insert i, .insert j => i == j
  | .delete i, .delete j => i == j
  | _, _ => false

instance : BEq (Step α) :=
  ⟨fun a b => sameKind a.kind b.kind && a.cost == b.cost && a.rows == b.rows⟩

/-- The step in words. -/
def text (step : Step α) : String :=
  match step.kind with
  | .root => "Root"
  | .lookup index _ => index.descriptor
  | .filter eq range => "filter" ++ Field.listing (eq ++ range)
  | .sort fields => "sort" ++ Field.listing fields
  | .limit rows => s!"limit {rows}"
  | .aggregate aggregates groupBy =>
    "aggregate" ++ Aggregate.listing aggregates
      ++ if groupBy.isEmpty then "" else " by " ++ Field.listing groupBy
  | .insert index => "insert " ++ index.key
  | .delete index => "delete " ++ index.key

end Step

/-! ## Taking steps in memory -/

/-- A step and the state that it leads to. -/
structure Transition (α : Type) where
  step : Step α
  state : PlanState α

namespace Transition

variable {α : Type} [Scalar α]

/-- The start of a query. -/
def start (q : Query α) : Transition α :=
  let state := PlanState.start q
  ⟨.root state, state⟩

/-- Applies the conditions on reachable fields. -/
def filter (costs : CostModel α) (s : PlanState α) : Except Rejection (Transition α) :=
  if s.aggregated then .error .aggregationIncompatible
  else
    let eq := s.eq.filter s.isReachable
    let range := s.range.filter s.isReachable
    if eq.isEmpty && range.isEmpty then .error .notApplicable
    else
      let next := { s with
        eq := s.eq.diff eq
        range := s.range.diff range
        rows := Selectivity.apply s.rows eq.toList range.toList }.settleGraph
      .ok ⟨⟨.filter eq.toList range.toList, costs.filter s.rows (eq.size + range.size), next.rows⟩,
        next⟩

/-- Sorts by fetched fields once all else but a limit and aggregation is done. -/
def sort (costs : CostModel α) (s : PlanState α) : Except Rejection (Transition α) :=
  if s.aggregated then .error .aggregationIncompatible
  else if s.orderBy.isEmpty || !s.orderBy.all s.fetched.contains
      || !s.isAnsweredFor ⟨false, false, false⟩ then .error .notApplicable
  else
    .ok ⟨⟨.sort s.orderBy, costs.sort s.rows s.orderBy.length, s.rows⟩, { s with orderBy := [] }⟩

/-- Cuts the rows to the limit once all else but aggregation is done. -/
def limit (costs : CostModel α) (s : PlanState α) : Except Rejection (Transition α) :=
  if s.aggregated then .error .aggregationIncompatible
  else
    match s.query.limit with
    | none => .error .notApplicable
    | some limit =>
      if s.withinLimit || !s.isAnsweredFor ⟨false, true, false⟩ then .error .notApplicable
      else
        let rows := Scalar.ofCount limit
        .ok ⟨⟨.limit limit, costs.limit s.rows limit, rows⟩, { s with rows }⟩

/-- Aggregates fetched fields once all else is done. -/
def aggregate (costs : CostModel α) (s : PlanState α) : Except Rejection (Transition α) :=
  if s.aggregated then .error .aggregationIncompatible
  else if s.aggregates.isEmpty && s.groupBy.isEmpty then .error .notApplicable
  else if !(s.aggregates.fields ++ s.groupBy.toList).all s.fetched.contains
      || !s.isAnsweredFor ⟨true, true, false⟩ then .error .notApplicable
  else
    let groups := s.groupBy.toList
    let rows := Selectivity.grouped s.rows groups
    .ok ⟨⟨.aggregate s.aggregates.toList groups,
        costs.aggregate s.rows s.aggregates.size groups.length, rows⟩,
      { s with aggregates := ∅, groupBy := ∅, aggregated := true, rows }⟩

end Transition

end IndexDesign
