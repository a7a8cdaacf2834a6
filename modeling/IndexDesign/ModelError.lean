/-! # Model errors — why a model, graph, index or statement is refused

    A model error is a cause with the names it is about.  Its kind groups
    causes for callers; its message is the kind's heading followed by the
    cause's detail. -/

namespace IndexDesign

/-- What sort of definition a model error is about. -/
inductive ModelError.Kind where
  | unknownEntity
  | unknownField
  | malformedIndex
  | invalidStatement
  | disconnectedGraph
  | invalidEntity
  deriving DecidableEq, Repr

/-- The message of a kind of error with the given detail. -/
def ModelError.Kind.describe (kind : Kind) (detail : String) : String :=
  let heading := match kind with
    | .unknownEntity => "未知实体"
    | .unknownField => "未知字段"
    | .malformedIndex => "索引定义非法"
    | .invalidStatement => "语句定义非法"
    | .disconnectedGraph => "查询图不连通"
    | .invalidEntity => "实体定义非法"
  heading ++ ": " ++ detail

/-- Why a definition is refused. -/
inductive ModelError where
  /-- No entity of the model has this name. -/
  | unknownEntity (name : String)
  /-- A foreign key points to an entity that the model does not have. -/
  | danglingForeignKey (field target : String)
  /-- No field has this name. -/
  | unknownField (name : String)
  /-- An entity is declared without an identifier. -/
  | missingIdentifier (entity : String)
  /-- An entity declares two fields of one name. -/
  | duplicateField (entity field : String)
  /-- A graph is asked for along no entities. -/
  | emptyPath
  /-- No foreign key joins two successive entities of a path. -/
  | noForeignKey (left right : String)
  /-- An index has no partition field. -/
  | emptyPartition
  /-- The partition fields of an index lie on more than one entity. -/
  | scatteredPartition (fields : String)
  /-- The graph of an index is empty or falls apart. -/
  | brokenIndexGraph (graph : String)
  /-- A field of an index lies on no entity of its graph. -/
  | fieldOutsideGraph (field graph : String)
  /-- An entity's identifier is not in the key of the index. -/
  | identifierNotKeyed (entity : String)
  /-- An aggregated field is not stored in the index. -/
  | aggregateNotStored (aggregate : String)
  /-- A grouping field is not stored in the index. -/
  | groupNotStored (field : String)
  /-- A statement joins no entities. -/
  | noJoinOrder (statement : String)
  /-- A field of a query lies on no entity of its path. -/
  | fieldOffQueryPath (field : String)
  /-- A query neither selects nor aggregates. -/
  | nothingSelected
  /-- A query's weight is negative or not a number. -/
  | illegalWeight (weight : String)
  /-- A field has both an equality and a range condition. -/
  | equalityAndRange (field : String)
  /-- The path of an update misses the entity it writes. -/
  | pathMissesEntity (entity : String)
  /-- An update writes a field of another entity. -/
  | writesElsewhere (entity field : String)
  /-- An update writes no field. -/
  | nothingWritten
  /-- A condition of an update lies on no entity of its path. -/
  | fieldOffUpdatePath (field : String)
  /-- An update or delete does not say which rows it is about. -/
  | needsEquality (kind : String)
  deriving DecidableEq, Repr

namespace ModelError

/-- The kind of an error. -/
def kind : ModelError → Kind
  | unknownEntity .. | danglingForeignKey .. => .unknownEntity
  | unknownField .. => .unknownField
  | missingIdentifier .. | duplicateField .. => .invalidEntity
  | emptyPath | noForeignKey .. => .disconnectedGraph
  | emptyPartition | scatteredPartition .. | brokenIndexGraph .. | fieldOutsideGraph ..
  | identifierNotKeyed .. | aggregateNotStored .. | groupNotStored .. => .malformedIndex
  | noJoinOrder .. | fieldOffQueryPath .. | nothingSelected | illegalWeight ..
  | equalityAndRange .. | pathMissesEntity .. | writesElsewhere .. | nothingWritten
  | fieldOffUpdatePath .. | needsEquality .. => .invalidStatement

/-- What the error says beyond its kind. -/
def detail : ModelError → String
  | unknownEntity name => name
  | danglingForeignKey field target => s!"{field} 引用的实体 {target}"
  | unknownField name => name
  | missingIdentifier entity => s!"{entity} 缺少标识符字段"
  | duplicateField entity field => s!"{entity} 中字段 {field} 重复"
  | emptyPath => "空路径"
  | noForeignKey left right => s!"{left} 与 {right} 之间没有外键"
  | emptyPartition => "分区字段为空"
  | scatteredPartition fields => s!"分区字段跨越多个实体: {fields}"
  | brokenIndexGraph graph => s!"查询图为空或不连通: {graph}"
  | fieldOutsideGraph field graph => s!"字段 {field} 不在查询图 {graph} 中"
  | identifierNotKeyed entity => s!"实体 {entity} 的标识符未出现在分区或有序字段中"
  | aggregateNotStored aggregate => s!"聚合字段 {aggregate} 不在索引字段中"
  | groupNotStored field => s!"分组字段 {field} 不在索引字段中"
  | noJoinOrder statement => s!"{statement} 没有连接顺序"
  | fieldOffQueryPath field => s!"字段 {field} 不在查询路径上"
  | nothingSelected => "没有选择任何字段"
  | illegalWeight weight => s!"权重非法: {weight}"
  | equalityAndRange field => s!"字段 {field} 同时出现在等值与范围条件中"
  | pathMissesEntity entity => s!"路径不包含被修改实体 {entity}"
  | writesElsewhere entity field => s!"只能写入 {entity} 的字段，而非 {field}"
  | nothingWritten => "UPDATE 没有写入字段"
  | fieldOffUpdatePath field => s!"字段 {field} 不在语句路径上"
  | needsEquality kind => s!"{kind} 需要等值条件"

/-- The message of an error. -/
def message (e : ModelError) : String := e.kind.describe e.detail

end ModelError

end IndexDesign
