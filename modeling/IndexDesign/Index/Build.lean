import IndexDesign.Index.Basic

/-! # Building indexes — from lists of fields to a well-formed index

    Repeated fields are dropped first: a field belongs to the partition, else
    to the order where it is first listed, else to the extra fields.  The index
    that remains is refused unless

    * its partition is not empty and lies on one entity,
    * its graph is not empty and connected,
    * each of its fields lies on an entity of the graph,
    * the identifier of each entity is a partition or ordered field,
    * each aggregated and each grouping field is stored.

    The first of these that fails is the error. -/

namespace IndexDesign.Index

/-- The parts of an index as they are asked for. -/
structure Draft where
  graph : JoinGraph
  partition : List Field
  ordered : List Field
  extra : List Field
  aggregates : List Aggregate
  groupBy : List Field

/-- The fields that are not in the set, each where it is first listed. -/
def distinctOutside (taken : FieldSet) : List Field → List Field
  | [] => []
  | f :: fs =>
    if f ∈ taken then distinctOutside taken fs
    else f :: distinctOutside (taken.insert f) fs

/-- The index of a draft, without repetitions. -/
def Draft.normalize (d : Draft) : Index :=
  let partition := SortedSet.ofList d.partition
  let ordered := distinctOutside partition d.ordered
  { partition
    ordered
    extra := (SortedSet.ofList d.extra).diff (partition.union (SortedSet.ofList ordered))
    aggregates := SortedSet.ofList d.aggregates
    groupBy := SortedSet.ofList d.groupBy
    graph := d.graph }

/-- Whether all fields lie on one entity. -/
def onOneEntity : List Field → Bool
  | [] => true
  | f :: fs => fs.all (·.entity == f.entity)

/-- Every field that the index names. -/
def referenced (i : Index) : List Field :=
  i.stored.toList ++ i.groupBy.toList ++ i.aggregates.fields

/-- Whether the identifier of the entity is part of the key of a row. -/
def keysEntity (i : Index) (e : Entity) : Bool :=
  i.partition.contains e.id || i.ordered.any (·.same e.id)

/-- The first rule for indexes that the index breaks. -/
def fault? (i : Index) : Option ModelError :=
  if i.partition.isEmpty then some .emptyPartition
  else if !onOneEntity i.partition.toList then some (.scatteredPartition i.partition.listing)
  else if i.graph.isEmpty || !i.graph.isConnected then some (.brokenIndexGraph i.graph.text)
  else
    match i.referenced.find? (! i.graph.coversField ·) with
    | some f => some (.fieldOutsideGraph f.qualifiedName i.graph.text)
    | none =>
    match i.graph.entities.toList.find? (! i.keysEntity ·) with
    | some e => some (.identifierNotKeyed e.name)
    | none =>
    match i.aggregates.toList.find? (! i.stored.contains ·.field) with
    | some a => some (.aggregateNotStored a.text)
    | none => (i.groupBy.toList.find? (! i.stored.contains ·)).map (.groupNotStored ·.qualifiedName)

/-- The index of a draft, or the first rule that it breaks. -/
def build (d : Draft) : Except ModelError Index :=
  match d.normalize.fault? with
  | some fault => .error fault
  | none => .ok d.normalize

end IndexDesign.Index
