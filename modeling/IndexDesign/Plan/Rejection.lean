/-! # Rejections — why a step does not extend a partial plan

    A rejection only cuts one branch of the search.  `notApplicable` says that
    the step has nothing to do, which is no finding about an index; the search
    does not count it. -/

namespace IndexDesign

/-- Why a step is not taken. -/
inductive Rejection where
  /-- The index does not have the next entity of the join order. -/
  | joinHeadMissing
  /-- The index joins what the remaining query does not. -/
  | joinEdgesNotImplied
  /-- An index on one entity is looked up while further joins remain. -/
  | backwardLookup
  /-- Two lookups in a row find the same rows by identifier. -/
  | repeatedIdentityLookup
  /-- The identifier that the last lookup produced is not used. -/
  | parentIdUnused
  /-- A partition field has no value yet. -/
  | partitionUnbound
  /-- The index lacks a field to filter, order or select by. -/
  | missingLocalFields
  /-- A leaf of the query gets neither its identifier nor its fields. -/
  | leafIncomplete
  /-- The aggregation of the index is not part of what remains, or comes too late. -/
  | aggregationIncompatible
  /-- The branch looks the index up already. -/
  | indexReused
  /-- The branch has as many lookups as allowed. -/
  | lookupLimit
  /-- The step has nothing to do in this state. -/
  | notApplicable
  deriving DecidableEq, Repr

namespace Rejection

/-- All rejections, in the order in which counts are reported. -/
def all : List Rejection :=
  [joinHeadMissing, joinEdgesNotImplied, backwardLookup, repeatedIdentityLookup, parentIdUnused,
    partitionUnbound, missingLocalFields, leafIncomplete, aggregationIncompatible, indexReused,
    lookupLimit, notApplicable]

/-- The name under which a rejection is counted. -/
def name : Rejection → String
  | joinHeadMissing => "JoinHeadMissing"
  | joinEdgesNotImplied => "JoinEdgesNotImplied"
  | backwardLookup => "BackwardLookup"
  | repeatedIdentityLookup => "RepeatedIdentityLookup"
  | parentIdUnused => "ParentIdUnused"
  | partitionUnbound => "PartitionUnbound"
  | missingLocalFields => "MissingLocalFields"
  | leafIncomplete => "LeafIncomplete"
  | aggregationIncompatible => "AggregationIncompatible"
  | indexReused => "IndexReused"
  | lookupLimit => "LookupLimit"
  | notApplicable => "NotApplicable"

/-- The message of a rejection. -/
def message : Rejection → String
  | joinHeadMissing => "索引图未覆盖连接顺序的首个实体"
  | joinEdgesNotImplied => "索引图的边不在剩余连接顺序中"
  | backwardLookup => "单实体索引只能作为首步或剩余图仅含一个实体时使用"
  | repeatedIdentityLookup => "连续两次对同一实体进行标识符查找"
  | parentIdUnused => "未使用上一步产生的标识符"
  | partitionUnbound => "分区字段尚未绑定"
  | missingLocalFields => "索引缺少过滤或排序所需字段"
  | leafIncomplete => "叶子实体既无标识符也无全部所需字段"
  | aggregationIncompatible => "聚合索引与剩余分组或父步骤不兼容"
  | indexReused => "同一分支已使用该索引"
  | lookupLimit => "索引查找次数超过上限"
  | notApplicable => "步骤不适用于当前状态"

end Rejection

end IndexDesign
