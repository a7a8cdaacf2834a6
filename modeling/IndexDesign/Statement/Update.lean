import IndexDesign.Statement.Query

/-! # Updates — statements that write, and the queries that maintaining an index takes

    An index is modified by inserting or deleting rows of an entity that it
    joins, and by writing a field that it stores.  The rows to write are found
    by support queries, which fetch the index fields that the statement does
    not give. -/

namespace IndexDesign

/-- What an update does. -/
inductive UpdateKind where
  | insert
  | update
  | delete
  deriving DecidableEq, Repr

/-- The name of the kind. -/
def UpdateKind.name : UpdateKind → String
  | insert => "INSERT"
  | update => "UPDATE"
  | delete => "DELETE"

/-- A statement that writes rows of one entity. -/
structure Update (α : Type) where
  text : String
  kind : UpdateKind
  entity : Entity
  /-- The written fields. -/
  settings : FieldSet
  /-- The fields whose values say which rows are written. -/
  eq : FieldSet
  graph : JoinGraph
  weight : α

namespace Update

variable {α : Type}

/-- The update written as a statement. -/
def render (u : Update α) : String :=
  match u.kind with
  | .insert => "INSERT INTO " ++ u.entity.name ++ " SET " ++ u.settings.listing
  | .update =>
    "UPDATE " ++ u.entity.name ++ " SET " ++ u.settings.listing ++ " WHERE " ++ u.eq.listing
  | .delete => "DELETE FROM " ++ u.entity.name ++ " WHERE " ++ u.eq.listing

/-- The fields that the statement gives values for. -/
def given (u : Update α) : FieldSet := u.settings.union u.eq

/-! ## Building updates -/

/-- The parts of an update as they are asked for, fields by qualified name.  Without a path
    the conditions lie on the written entity. -/
structure Draft (α : Type) where
  kind : UpdateKind
  entity : String
  path : List String
  settings : List String
  eq : List String
  weight : α
  text : Option String

/-- The field of a qualified name, which has to belong to the entity. -/
def settingOf (m : Model) (e : Entity) (name : String) : Except ModelError Field := do
  let field ← m.field name
  if field.entity = e.name then return field else .error (.writesElsewhere e.name name)

/-- The field of a qualified name, which has to lie on the graph. -/
def conditionOn (m : Model) (g : JoinGraph) (name : String) : Except ModelError Field := do
  let field ← m.field name
  if g.coversField field then return field else .error (.fieldOffUpdatePath name)

/-- The fields that the draft writes: those it names, or all where an insert names none. -/
def settingsOf (m : Model) (e : Entity) (kind : UpdateKind) (names : List String) :
    Except ModelError FieldSet := do
  let settings := (∅ : FieldSet).extend (← names.mapM (settingOf m e))
  if settings.isEmpty then
    match kind with
    | .insert => return e.fields
    | .update => .error .nothingWritten
    | .delete => return settings
  else return settings

/-- The conditions of the draft; only an insert does without. -/
def conditionsOf (m : Model) (g : JoinGraph) (kind : UpdateKind) (names : List String) :
    Except ModelError FieldSet := do
  let eq := (∅ : FieldSet).extend (← names.mapM (conditionOn m g))
  if kind ≠ .insert ∧ eq.isEmpty = true then .error (.needsEquality kind.name) else return eq

/-- The update of a draft, or the first error in it. -/
def build (m : Model) (d : Draft α) : Except ModelError (Update α) := do
  let entity ← m.entity d.entity
  let graph ← if d.path.isEmpty then pure (JoinGraph.single entity) else JoinGraph.ofPath m d.path
  if graph.contains entity.name then
    let settings ← settingsOf m entity d.kind d.settings
    let eq ← conditionsOf m graph d.kind d.eq
    let update : Update α :=
      { text := "", kind := d.kind, entity, settings, eq, graph, weight := d.weight }
    return { update with text := d.text.getD update.render }
  else .error (.pathMissesEntity entity.name)

/-! ## Maintained indexes -/

/-- Whether the update changes rows of the index. -/
def modifies (u : Update α) (i : Index) : Bool :=
  match u.kind with
  | .insert | .delete => i.graph.contains u.entity.name
  | .update => u.settings.toList.any i.containsField

/-- The identifiers of the graph's entities that written foreign keys point to. -/
def pointedIds (u : Update α) (g : JoinGraph) : List Field :=
  ((u.settings.toList.filterMap (·.foreignTarget)).filterMap g.entity?).map (·.id)

/-- The index fields that the statement does not give, neither itself nor by pointing to
    them. -/
def missing (u : Update α) (i : Index) : FieldSet :=
  i.allFields.diff (u.given.extend (u.pointedIds i.graph))

/-- A query for the given fields where the given conditions hold, in support of maintaining
    the index. -/
def supportQuery (u : Update α) (i : Index) (graph : JoinGraph) (select eq : FieldSet) : Query α :=
  let query : Query α :=
    { text := "", select, eq, range := ∅, orderBy := [], groupBy := ∅, aggregates := ∅,
      limit := none, graph, weight := u.weight, handle := 0 }
  query.titled (some (query.render ++ " -- 维护 " ++ i.key ++ " 的 " ++ u.kind.name))

/-- The query for the missing fields on one part of an index's graph, which only the written
    foreign keys lead to.  A part without missing fields takes no query; a part that no
    written key points to cannot be queried. -/
def partQuery (u : Update α) (i : Index) (part : JoinGraph) : Option (Option (Query α)) :=
  let select := (u.missing i).filter part.coversField
  let eq : FieldSet := SortedSet.ofList (u.pointedIds part)
  if select.isEmpty then some none
  else if eq.isEmpty then none
  else some (some (u.supportQuery i part select eq))

/-- The queries that maintaining the index takes.  The list is empty where the statement
    gives every field; without a list the missing fields cannot be found. -/
def supportQueries (u : Update α) (i : Index) : Option (List (Query α)) :=
  if (u.missing i).isEmpty then some []
  else
    match u.kind with
    | .insert => do
      let queries ← (i.graph.split u.entity.name false).mapM (u.partQuery i)
      return queries.filterMap id
    | .update | .delete =>
      if u.eq.isEmpty then none
      else some [u.supportQuery i (i.graph.union u.graph) (u.missing i) u.eq]

end Update

end IndexDesign
