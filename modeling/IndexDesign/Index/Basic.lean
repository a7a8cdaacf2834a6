import IndexDesign.Aggregate
import IndexDesign.Graph.Traversal
import IndexDesign.Scalar

/-! # Indexes — tables that a wide-column store keeps for queries

    An index stores the join of its graph's entities.  Its rows are spread over
    partitions by the partition fields, sorted within a partition by the
    ordered fields, and carry the extra fields besides.  An aggregating index
    keeps one row per partition and group.

    An index is told apart by its descriptor, the text of all its parts.  Its
    key is a short fingerprint of the descriptor; indexes are ordered by key. -/

namespace IndexDesign

-- Sums of counts start at the built-in zero, whatever other instances are in sight.
attribute [local instance (high)] Zero.ofOfNat0

/-- A candidate table of the store. -/
structure Index where
  /-- The fields that select a partition. -/
  partition : FieldSet
  /-- The fields that sort the rows of a partition. -/
  ordered : List Field
  /-- The other fields that a row carries. -/
  extra : FieldSet
  /-- The aggregates that a row carries. -/
  aggregates : AggregateSet
  /-- The fields that the aggregates are grouped by. -/
  groupBy : FieldSet
  /-- The joined entities. -/
  graph : JoinGraph

/-- The 64-bit fingerprint of a text: each byte of its encoding is mixed in by an exclusive
    or and a multiplication modulo 2⁶⁴. -/
def fingerprint (s : String) : UInt64 :=
  s.toUTF8.toList.foldl (fun hash byte => (hash ^^^ byte.toUInt64) * 0x100000001b3)
    0xcbf29ce484222325

/-- A 64-bit word in sixteen hexadecimal digits. -/
def hexWord (w : UInt64) : String :=
  let digits := Nat.toDigits 16 w.toNat
  String.ofList (List.replicate (16 - digits.length) '0' ++ digits)

namespace Index

/-- Whether the index keeps one row per group. -/
def isAggregating (i : Index) : Bool := !i.aggregates.isEmpty || !i.groupBy.isEmpty

/-- The text of all parts of the index. -/
def descriptor (i : Index) : String :=
  let fields := i.partition.listing ++ Field.listing i.ordered ++ i.extra.listing
  let grouping :=
    if i.isAggregating then
      " agg" ++ Aggregate.listing i.aggregates.toList ++ " by" ++ i.groupBy.listing
    else ""
  fields ++ grouping ++ " $ " ++ i.graph.text

instance : ToString Index := ⟨descriptor⟩

/-- The name of the index: a fingerprint of its descriptor. -/
def key (i : Index) : String := "i" ++ hexWord (fingerprint i.descriptor)

instance : Keyed Index where
  key i := [i.key, i.descriptor]

instance : BEq Index := ⟨fun i j => i.descriptor == j.descriptor⟩

/-- The fields of the partition, the order and the extra fields. -/
def stored (i : Index) : FieldSet :=
  SortedSet.ofList (i.partition.toList ++ i.ordered ++ i.extra.toList)

/-- Every field that a row carries a value of. -/
def allFields (i : Index) : FieldSet :=
  (i.stored.union i.groupBy).extend i.aggregates.fields

/-- Whether a row carries a value of the field. -/
def containsField (i : Index) (f : Field) : Bool := i.allFields.contains f

/-- Whether the index maps the identifiers of one entity to its rows. -/
def isIdentity (i : Index) : Bool :=
  match i.graph.entities.toList, i.partition.toList with
  | [entity], [field] => field.same entity.id
  | _, _ => false

/-- The entity of the partition fields. -/
def partitionEntity (i : Index) : Option String := i.partition.first?.map (·.entity)

/-- How many of the first ordered fields are in the set. -/
def orderedWithin (i : Index) (fields : FieldSet) : Nat :=
  (i.ordered.takeWhile fields.contains).length

/-- The size of a row in bytes. -/
def entrySize (i : Index) : Nat := (i.allFields.toList.map (·.size)).sum

section Size

variable {α : Type} [Scalar α]

/-- The product of the fields' numbers of distinct values. -/
def combinations (fields : List Field) : α :=
  Scalar.product (fields.map fun f => Scalar.ofCount f.cardinality)

/-- The estimated number of rows: that of the largest entity, or of the groups where the
    index aggregates and these are fewer. -/
def entries (i : Index) : α :=
  let rows := i.graph.entities.toList.foldl
    (fun rows e => Scalar.max rows (Scalar.ofCount e.count)) Scalar.one
  if i.isAggregating then
    let groups : α := combinations (i.partition.toList ++ i.groupBy.toList)
    Scalar.min rows (Scalar.max groups Scalar.one)
  else rows

/-- The estimated number of partitions, between one and the number of rows. -/
def partitionCount (i : Index) : α :=
  Scalar.clamp Scalar.one i.entries (combinations i.partition.toList)

/-- The mean number of rows of a partition. -/
def perPartition (i : Index) : α := i.entries / i.partitionCount

/-- The estimated size of the index in bytes. -/
def size (i : Index) : α := i.entries * Scalar.ofCount i.entrySize

end Size

end Index

/-- The candidate indexes in the order of their keys, each once. -/
def Index.pool (indexes : List Index) : List Index := ((∅ : SortedSet Index).extend indexes).toList

end IndexDesign
