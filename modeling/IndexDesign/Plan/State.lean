import IndexDesign.Statement.Query

/-! # Plan states — what is left to do on a branch of the search

    A state starts with all the work of its query: fields to fetch, conditions
    to apply, an order, a grouping, entities to join.  Every step of a plan
    takes work out of the state; a query is answered when none is left.

    An entity's identifier is reachable without being fetched where a fetched
    foreign key points to the entity. -/

namespace IndexDesign

/-- The work left on a branch and what the branch has fetched. -/
structure PlanState (α : Type) where
  query : Query α
  /-- The fields to fetch. -/
  fields : FieldSet
  /-- The equality conditions to apply. -/
  eq : FieldSet
  /-- The range conditions to apply. -/
  range : FieldSet
  /-- The fields to sort by. -/
  orderBy : List Field
  /-- The fields to group by. -/
  groupBy : FieldSet
  /-- The aggregates to compute. -/
  aggregates : AggregateSet
  /-- The part of the query's graph to visit. -/
  graph : JoinGraph
  /-- The entities to visit, in order; the first is where the branch stands. -/
  joins : List String
  /-- The fields that the branch has fetched. -/
  fetched : FieldSet
  /-- Whether the branch has aggregated. -/
  aggregated : Bool
  /-- The estimated number of rows. -/
  rows : α
  /-- The number of partition lookups of the last index. -/
  lookups : α

/-- Which kinds of work count when a state is tested for being answered. -/
structure AnswerChecks where
  limit : Bool := true
  order : Bool := true
  aggregate : Bool := true
  deriving DecidableEq, Repr

namespace PlanState

variable {α : Type} [Scalar α]

/-- The state before the first step of a query. -/
def start (q : Query α) : PlanState α where
  query := q
  fields := q.required
  eq := q.eq
  range := q.range
  orderBy := q.orderBy
  groupBy := q.groupBy
  aggregates := q.aggregates
  graph := q.graph
  joins := q.joinOrder
  fetched := ∅
  aggregated := false
  rows := (q.joinOrder.head?.bind q.graph.entity?).elim Scalar.one fun e => Scalar.ofCount e.count
  lookups := Scalar.one

/-- The fields that the query gives a value. -/
def given (s : PlanState α) : FieldSet := s.query.eq

/-- Whether the field is fetched or is the identifier that a fetched foreign key holds. -/
def isReachable (s : PlanState α) (f : Field) : Bool :=
  s.fetched.contains f ||
    (f.isId && s.fetched.toList.any fun g => g.foreignTarget == some f.entity)

/-- Whether the field has a value: the query gives it or it is reachable. -/
def isBound (s : PlanState α) (f : Field) : Bool := s.given.contains f || s.isReachable f

/-- Whether the rows are no more than the query's limit. -/
def withinLimit (s : PlanState α) : Bool :=
  s.query.limit.all fun limit => decide (s.rows ≤ Scalar.ofCount limit)

/-- Whether no work is left, of the kinds that count. -/
def isAnsweredFor (s : PlanState α) (checks : AnswerChecks) : Bool :=
  s.fields.isEmpty && s.eq.isEmpty && s.range.isEmpty && s.joins.isEmpty && s.graph.isEmpty
    && (!checks.order || s.orderBy.isEmpty)
    && (!checks.aggregate || (s.aggregates.isEmpty && s.groupBy.isEmpty))
    && (!checks.limit || s.withinLimit)

/-- Whether no work is left. -/
def isAnswered (s : PlanState α) : Bool := s.isAnsweredFor {}

/-- Whether the entity has to be looked up: it has fields to fetch, or conditions or an order
    on fields that are not reachable. -/
def needs (s : PlanState α) (entity : String) : Bool :=
  s.fields.toList.any (·.entity == entity) ||
    (s.eq.toList ++ s.range.toList ++ s.orderBy).any fun f =>
      f.entity == entity && !s.isReachable f

/-- The state with nothing more to visit where one entity is left and is not needed. -/
def settleGraph (s : PlanState α) : PlanState α :=
  match s.joins with
  | [last] => if s.needs last then s else { s with joins := [], graph := ∅ }
  | _ => s

/-- The state with its rows cut to the limit where nothing else is left to do. -/
def settleLimit (s : PlanState α) : PlanState α :=
  match s.query.limit with
  | some limit =>
    if s.isAnsweredFor { limit := false } then
      { s with rows := Scalar.min s.rows (Scalar.ofCount limit) }
    else s
  | none => s

/-- The state in words, one kind of work a line. -/
def text [Rendered α] (s : PlanState α) : String :=
  let rows := Rendered.fixed 2 s.rows
  let lookups := Rendered.fixed 2 s.lookups
  "\n".intercalate
    [s!"语句: {s.query.text}",
      s!"  待取字段: {s.fields.listing}",
      s!"  等值条件: {s.eq.listing}",
      s!"  范围条件: {s.range.listing}",
      s!"  排序字段: {Field.listing s.orderBy}",
      s!"  分组字段: {s.groupBy.listing}",
      s!"  聚合: {Aggregate.listing s.aggregates.toList}",
      "  连接顺序: [" ++ ", ".intercalate s.joins ++ "]",
      s!"  基数: {rows} (分区查找 {lookups})"]

end PlanState

end IndexDesign
