import IndexDesign.SortedSet

/-! # Fields — the columns of entities, with their statistics

    A field is told apart by its entity and its name alone; type, row
    statistics and size do not enter comparison.  Fields are ordered by
    entity, then by name. -/

namespace IndexDesign

/-- What a field holds. -/
inductive FieldType where
  /-- An identifier of the entity's rows. -/
  | id
  | integer
  | float
  /-- A text of the given mean length. -/
  | string (length : Nat)
  | date
  /-- The identifier of a row of another entity. -/
  | foreignKey (target : String)
  deriving DecidableEq, Repr

namespace FieldType

/-- The size in bytes of a value, unless a field says otherwise. -/
def defaultSize : FieldType → Nat
  | id | foreignKey _ => 16
  | integer | float | date => 8
  | string length => length

/-- The name of the type. -/
def name : FieldType → String
  | id => "id"
  | integer => "integer"
  | float => "float"
  | string _ => "string"
  | date => "date"
  | foreignKey _ => "foreign_key"

end FieldType

/-- A column of an entity. -/
structure Field where
  entity : String
  name : String
  type : FieldType
  /-- The estimated number of distinct values, at least one. -/
  cardinality : Nat
  /-- The size of a value in bytes. -/
  size : Nat
  /-- The fields that make up a composite identifier. -/
  composite : List String
  deriving DecidableEq, Repr

instance : Keyed Field where
  key f := [f.entity, f.name]

namespace Field

/-- A field with one distinct value and its type's size. -/
def ofType (entity name : String) (type : FieldType) : Field :=
  { entity, name, type, cardinality := 1, size := type.defaultSize, composite := [] }

/-- The field with another number of distinct values, counted as one where it is zero. -/
def withCardinality (f : Field) (cardinality : Nat) : Field :=
  { f with cardinality := max cardinality 1 }

/-- The field with another size. -/
def withSize (f : Field) (size : Nat) : Field := { f with size }

/-- The field as a composite identifier made of the given fields. -/
def withComposite (f : Field) (composite : List String) : Field := { f with composite }

/-- Whether two fields are the same column. -/
def same (f g : Field) : Bool := f.entity == g.entity && f.name == g.name

/-- Whether the field holds identifiers. -/
def isId (f : Field) : Bool := f.type == .id

/-- Whether the field is an identifier made of other fields. -/
def isCompositeId (f : Field) : Bool := f.isId && !f.composite.isEmpty

/-- The entity whose identifiers the field holds, where it is a foreign key. -/
def foreignTarget (f : Field) : Option String :=
  match f.type with
  | .foreignKey target => some target
  | _ => none

/-- The entity's and the field's name with a point between them. -/
def qualifiedName (f : Field) : String := f.entity ++ "." ++ f.name

instance : ToString Field := ⟨qualifiedName⟩

/-- The place of one column relative to another: by entity, then by name. -/
def compare (f g : Field) : Ordering :=
  if key f < key g then .lt else if key g < key f then .gt else .eq

/-- A listing of fields in brackets. -/
def listing (fields : List Field) : String :=
  "[" ++ ", ".intercalate (fields.map qualifiedName) ++ "]"

end Field

/-- A set of columns. -/
abbrev FieldSet := SortedSet Field

/-- A listing of the set in brackets. -/
def FieldSet.listing (fields : FieldSet) : String := Field.listing fields.toList

end IndexDesign
