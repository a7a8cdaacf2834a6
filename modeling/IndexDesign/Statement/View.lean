import IndexDesign.Statement.Query

/-! # Materialized views — the index that answers one query by itself

    The view's partition is given by the equality conditions on the first
    entity of the join order.  Its rows are sorted by the other conditions,
    the grouping, the order and the identifiers along the join order. -/

namespace IndexDesign.Query

variable {α : Type}

/-- The entity at which the query starts. -/
def head? (q : Query α) : Option Entity := q.joinOrder.head?.bind q.graph.entity?

/-- The identifiers of the entities along the join order. -/
def identifiers (q : Query α) : List Field :=
  (q.joinOrder.filterMap q.graph.entity?).map (·.id)

/-- The partition of the view of a query that starts at the given entity: the fields of the
    entity with an equality condition, or its identifier where there are none. -/
def viewPartition (q : Query α) (head : Entity) : List Field :=
  match q.eq.toList.filter (·.entity == head.name) with
  | [] => [head.id]
  | fields => fields

/-- The fields by which the view is sorted, before those of the partition are dropped. -/
def viewOrder (q : Query α) : List Field :=
  q.eq.toList ++ q.range.toList ++ q.groupBy.toList ++ q.orderBy ++ q.identifiers

/-- The view as an index draft, for a query that starts at the given entity. -/
def viewDraft (q : Query α) (head : Entity) : Index.Draft :=
  { graph := q.graph
    partition := q.viewPartition head
    ordered := q.viewOrder
    extra := q.required.toList
    aggregates := q.aggregates.toList
    groupBy := q.groupBy.toList }

/-- The index that is made for the query. -/
def view (q : Query α) : Except ModelError Index :=
  match q.head? with
  | some head => Index.build (q.viewDraft head)
  | none => .error (.noJoinOrder q.text)

end IndexDesign.Query
