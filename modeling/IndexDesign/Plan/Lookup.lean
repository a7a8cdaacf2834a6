import IndexDesign.Plan.ParentRule
import IndexDesign.Plan.Step

/-! # Lookups — extending a branch by an index

    A lookup is checked against the state before it is taken: the index covers
    the next entities of the join order, starts from what is known, and has
    the fields that cannot be fetched later.  The first check that fails gives
    the rejection.

    Looking up an index applies the conditions on its partition fields, on the
    ordered fields that equality conditions fix, and a range condition on the
    ordered field after those.  One partition comes in the index's order. -/

namespace IndexDesign

/-- What came before a lookup. -/
structure LookupContext where
  /-- The index that the branch looked up last. -/
  last : Option Index := none
  /-- Whether the step before aggregates. -/
  afterAggregation : Bool := false

namespace PlanState

variable {α : Type} [Scalar α]

/-- The entities of the join order that the index covers: as many as it has, from where the
    branch stands, joined as the query joins them. -/
def coverage (s : PlanState α) (index : Index) : Except Rejection (List String) :=
  match s.joins with
  | [] => .error .notApplicable
  | head :: _ =>
    if !index.graph.contains head then .error .joinHeadMissing
    else if s.joins.length < index.graph.size then .error .joinEdgesNotImplied
    else
      let covered := s.joins.take index.graph.size
      if covered.all index.graph.contains && index.graph.edges.isSubset s.graph.edges then
        .ok covered
      else .error .joinEdgesNotImplied

/-- Whether an index on one entity would be looked up in the middle of a branch while several
    entities are left. -/
def isBackward (s : PlanState α) (context : LookupContext) (index : Index) : Bool :=
  index.graph.size == 1 && context.last.isSome && decide (1 < s.graph.size)

/-- Whether the index has the fields of the covered entities that no later lookup brings: those
    of conditions and of the order that are not reachable, and those to fetch, except on the
    last entity where its identifier is in the index. -/
def hasLocalFields (s : PlanState α) (index : Index) (covered : List String) : Bool :=
  let last := covered.getLast?
  let deferrable := (last.bind s.graph.entity?).any fun e => index.containsField e.id
  let conditions := s.eq.toList ++ s.range.toList ++ s.orderBy
  conditions.all (fun f =>
      !covered.contains f.entity || s.isReachable f || index.containsField f)
    && s.fields.toList.all fun f =>
      !covered.contains f.entity || (deferrable && last == some f.entity)
        || index.containsField f

/-- Whether the index has the identifier or all fields to fetch of every covered entity that
    is a leaf of the query's graph. -/
def completesLeaves (s : PlanState α) (index : Index) (covered : List String) : Bool :=
  (covered.filter s.query.graph.leaves.contains).all fun leaf =>
    (s.graph.entity? leaf).all fun entity =>
      index.containsField entity.id ||
        (s.fields.toList.filter (·.entity == leaf)).all index.containsField

/-- Whether the index does not aggregate, or aggregates a part of what is left before anything
    else has. -/
def admitsAggregation (s : PlanState α) (context : LookupContext) (index : Index) : Bool :=
  !index.isAggregating ||
    (!context.afterAggregation && !s.aggregated && index.groupBy.isSubset s.groupBy
      && index.aggregates.isSubset s.aggregates)

/-- Whether the partition fields of the index are given by the query. -/
def isGivenOnly (s : PlanState α) (index : Index) : Bool := index.partition.isSubset s.given

/-- The number of partitions to look up: one for given fields, otherwise one for each row. -/
def lookupsOf (s : PlanState α) (index : Index) : α :=
  if s.isGivenOnly index then Scalar.one else Scalar.max s.rows Scalar.one

/-- The first ordered fields of the index, as far as equality conditions fix them. -/
def fixedOrdered (s : PlanState α) (index : Index) : List Field :=
  index.ordered.take (index.orderedWithin s.eq)

/-- The ordered fields of the index after those that equality conditions fix. -/
def freeOrdered (s : PlanState α) (index : Index) : List Field :=
  index.ordered.drop (index.orderedWithin s.eq)

/-- The range condition that the index applies: on the first ordered field that is not
    fixed. -/
def appliedRange (s : PlanState α) (index : Index) : List Field :=
  (s.freeOrdered index).head?.toList.filter s.range.contains

/-- The equality conditions that the index applies. -/
def appliedEq (s : PlanState α) (index : Index) : FieldSet :=
  (s.eq.filter index.partition.contains).union (SortedSet.ofList (s.fixedOrdered index))

/-- Whether the rows come in the query's order: one partition of an index on the entities to
    sort by, whose free ordered fields start with those. -/
def comesSorted (s : PlanState α) (index : Index) (covered : List String) : Bool :=
  !s.orderBy.isEmpty && s.isGivenOnly index && s.orderBy.all (covered.contains ·.entity)
    && (s.orderBy.map key).isPrefixOf ((s.freeOrdered index).map key)

/-- The state after looking up an index that covers the given entities.  The branch then stands
    at the last of them. -/
def afterLookup (s : PlanState α) (index : Index) (covered : List String) : PlanState α :=
  let lookups := s.lookupsOf index
  let next := { s with
    fields := s.fields.diff index.allFields
    eq := s.eq.diff (s.appliedEq index)
    range := s.range.diff (SortedSet.ofList (s.appliedRange index))
    orderBy := if s.comesSorted index covered then [] else s.orderBy
    groupBy := if index.isAggregating then s.groupBy.diff index.groupBy else s.groupBy
    aggregates :=
      if index.isAggregating then s.aggregates.diff index.aggregates else s.aggregates
    aggregated := s.aggregated || index.isAggregating
    fetched := s.fetched.union index.allFields
    graph := s.graph.without covered.dropLast
    joins := s.joins.drop (covered.length - 1)
    lookups
    rows := Selectivity.apply (lookups * index.perPartition) (s.fixedOrdered index)
      (s.appliedRange index) }
  next.settleGraph.settleLimit

end PlanState

/-- Looks up an index, or says why not. -/
def Transition.lookup {α : Type} [Scalar α] (costs : CostModel α) (s : PlanState α)
    (context : LookupContext) (index : Index) : Except Rejection (Transition α) := do
  let covered ← s.coverage index
  if s.isBackward context index then .error .backwardLookup
  (ParentRule.decision ⟨s, context.last, index⟩).2
  if !index.partition.toList.all s.isBound then .error .partitionUnbound
  if !s.hasLocalFields index covered then .error .missingLocalFields
  if !s.completesLeaves index covered then .error .leafIncomplete
  if !s.admitsAggregation context index then .error .aggregationIncompatible
  let next := s.afterLookup index covered
  return ⟨⟨.lookup index next.lookups, costs.lookup index next.lookups next.rows, next.rows⟩, next⟩

end IndexDesign
