import IndexDesign.Field
import IndexDesign.ModelError

/-! # Entities — row types with an identifier

    An entity is built from declarations in the order in which they are made.
    The last identifier declared is the entity's identifier.  A cardinality
    declaration reaches the first field of its name that is declared before
    it. -/

namespace IndexDesign

/-- A row type: a named set of fields with an estimated number of rows. -/
structure Entity where
  name : String
  /-- The estimated number of rows, at least one. -/
  count : Nat
  /-- The field that identifies a row. -/
  id : Field
  fields : FieldSet

instance : Keyed Entity where
  key e := [e.name]

/-- One declaration about an entity's fields. -/
inductive Declaration where
  /-- A field that identifies the rows, possibly made of others. -/
  | identifier (name : String) (partners : List String)
  /-- A field; without a cardinality it has as many values as the entity has rows. -/
  | field (name : String) (type : FieldType) (cardinality : Option Nat)
  /-- Another cardinality for a declared field. -/
  | cardinality (name : String) (cardinality : Nat)
  deriving DecidableEq, Repr

namespace Entity

/-- The fields declared so far, in order, and the name of the identifier. -/
structure Draft where
  fields : List Field
  id : Option String

/-- The first field of the given name with another cardinality. -/
def recount (name : String) (cardinality : Nat) : List Field → List Field
  | [] => []
  | f :: fs =>
    if f.name = name then f.withCardinality cardinality :: fs
    else f :: recount name cardinality fs

/-- The draft after one more declaration on an entity of `count` rows. -/
def Draft.declare (entity : String) (count : Nat) (d : Draft) : Declaration → Draft
  | .identifier name partners =>
    let field := ((Field.ofType entity name .id).withCardinality count).withComposite partners
    { fields := d.fields ++ [field], id := some name }
  | .field name type cardinality =>
    let field := (Field.ofType entity name type).withCardinality (cardinality.getD count)
    { d with fields := d.fields ++ [field] }
  | .cardinality name cardinality => { d with fields := recount name cardinality d.fields }

/-- The set of the given fields; two fields of one name are refused. -/
def collect (entity : String) : List Field → FieldSet → Except ModelError FieldSet
  | [], fields => .ok fields
  | f :: fs, fields =>
    if fields.contains f then .error (.duplicateField entity f.name)
    else collect entity fs (fields.insert f)

/-- The entity of a name and row count with the declared fields. -/
def build (name : String) (count : Nat) (declarations : List Declaration) :
    Except ModelError Entity := do
  let count := max count 1
  let draft := declarations.foldl (Draft.declare name count) ⟨[], none⟩
  let some idName := draft.id | .error (.missingIdentifier name)
  let fields ← collect name draft.fields ∅
  let some id := fields.find? [name, idName] | .error (.unknownField (name ++ "." ++ idName))
  match id.composite.find? fun partner => (fields.find? [name, partner]).isNone with
  | some partner => .error (.unknownField (name ++ "." ++ partner))
  | none => .ok { name, count, id, fields }

/-- The field of a name. -/
def field? (e : Entity) (name : String) : Option Field := e.fields.find? [e.name, name]

/-- The field of a name, or the error that there is none. -/
def field (e : Entity) (name : String) : Except ModelError Field :=
  match e.field? name with
  | some f => .ok f
  | none => .error (.unknownField (e.name ++ "." ++ name))

/-- The foreign keys that point to the given entity. -/
def foreignKeysTo (e : Entity) (target : String) : List Field :=
  e.fields.toList.filter (·.foreignTarget == some target)

end Entity

end IndexDesign
