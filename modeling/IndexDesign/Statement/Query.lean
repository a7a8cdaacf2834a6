import IndexDesign.Decimal.Text
import IndexDesign.Index.Build

/-! # Queries — statements that read

    A query selects fields and aggregates along a path of entities, under
    equality and range conditions, with an order, a grouping and a limit.  Its
    join order follows from its graph and its equality conditions.

    A query carries a handle: two queries with one handle are one statement,
    met twice.  A query that no workload has registered has handle zero. -/

namespace IndexDesign

/-- A statement that reads. -/
structure Query (α : Type) where
  text : String
  select : FieldSet
  /-- The fields that equality conditions give a value. -/
  eq : FieldSet
  /-- The fields under range conditions. -/
  range : FieldSet
  orderBy : List Field
  groupBy : FieldSet
  aggregates : AggregateSet
  limit : Option Nat
  graph : JoinGraph
  /-- How much the cost of the statement counts. -/
  weight : α
  handle : Nat

namespace Query

variable {α : Type}

/-- The entities in the order in which they are joined; the first is the start. -/
def joinOrder (q : Query α) : List String := q.graph.joinOrder q.eq

/-- Whether the query aggregates or groups. -/
def isAggregating (q : Query α) : Bool := !q.aggregates.isEmpty || !q.groupBy.isEmpty

/-- The fields to fetch: those selected, aggregated or grouped by. -/
def required (q : Query α) : FieldSet :=
  (q.select.extend q.aggregates.fields).union q.groupBy

/-- The same query with another weight. -/
def withWeight (q : Query α) (weight : α) : Query α := { q with weight }

/-- The names of fields between commas. -/
def commas (fields : List Field) : String := ", ".intercalate (fields.map (·.qualifiedName))

/-- The query written as a statement. -/
def render (q : Query α) : String :=
  let projections := q.select.toList.map (·.qualifiedName) ++ q.aggregates.toList.map (·.text)
  let conditions := q.eq.toList.map (·.qualifiedName ++ " = ?")
    ++ q.range.toList.map (·.qualifiedName ++ " > ?")
  let clause (heading : String) (present : Bool) (body : String) : String :=
    if present then heading ++ body else ""
  "SELECT " ++ ", ".intercalate projections ++ " FROM " ++ ".".intercalate q.joinOrder
    ++ clause " WHERE " (!conditions.isEmpty) (" AND ".intercalate conditions)
    ++ clause " GROUP BY " (!q.groupBy.isEmpty) (commas q.groupBy.toList)
    ++ clause " ORDER BY " (!q.orderBy.isEmpty) (commas q.orderBy)
    ++ q.limit.elim "" fun limit => " LIMIT " ++ toString limit

/-- The query with its written form as its text, unless a text is given. -/
def titled (q : Query α) (text : Option String) : Query α :=
  { q with text := text.getD q.render }

/-! ## Building queries -/

/-- The parts of a query as they are asked for, fields by qualified name. -/
structure Draft (α : Type) where
  path : List String
  select : List String
  eq : List String
  range : List String
  orderBy : List String
  groupBy : List String
  aggregates : List (AggregateFunction × String)
  limit : Option Nat
  weight : α
  text : Option String

/-- The field of a qualified name, which has to lie on the graph. -/
def fieldOn (m : Model) (g : JoinGraph) (name : String) : Except ModelError Field := do
  let field ← m.field name
  if g.coversField field then return field else .error (.fieldOffQueryPath name)

/-- The fields of qualified names, all on the graph. -/
def fieldsOn (m : Model) (g : JoinGraph) (names : List String) :
    Except ModelError (List Field) :=
  names.mapM (fieldOn m g)

/-- The aggregates of qualified names, all on the graph. -/
def aggregatesOn (m : Model) (g : JoinGraph) (names : List (AggregateFunction × String)) :
    Except ModelError (List Aggregate) :=
  names.mapM fun (function, name) => return ⟨function, ← fieldOn m g name⟩

variable [Scalar α] [Rendered α]

/-- The first rule for queries that the query breaks. -/
def fault? (q : Query α) : Option ModelError :=
  if q.select.isEmpty && q.aggregates.isEmpty then some .nothingSelected
  else if Scalar.zero ≤ q.weight then
    (q.eq.toList.find? q.range.contains).map (.equalityAndRange ·.qualifiedName)
  else some (.illegalWeight (Rendered.text q.weight))

/-- The query of a draft, or the first error in it. -/
def build (m : Model) (d : Draft α) : Except ModelError (Query α) := do
  let graph ← JoinGraph.ofPath m d.path
  let select ← fieldsOn m graph d.select
  let eq ← fieldsOn m graph d.eq
  let range ← fieldsOn m graph d.range
  let orderBy ← fieldsOn m graph d.orderBy
  let groupBy ← fieldsOn m graph d.groupBy
  let aggregates ← aggregatesOn m graph d.aggregates
  let query : Query α :=
    { text := ""
      select := SortedSet.ofList select
      eq := SortedSet.ofList eq
      range := SortedSet.ofList range
      orderBy
      groupBy := SortedSet.ofList groupBy
      aggregates := (∅ : SortedSet Aggregate).extend aggregates
      limit := d.limit
      graph
      weight := d.weight
      handle := 0 }
  match query.fault? with
  | some fault => .error fault
  | none => return query.titled d.text

end Query

end IndexDesign
