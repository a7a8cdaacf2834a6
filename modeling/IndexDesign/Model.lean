import IndexDesign.Entity

/-! # Models — the entities that statements and indexes are about -/

namespace IndexDesign

/-- The entities of an application. -/
structure Model where
  entities : SortedSet Entity

namespace Model

/-- The model without entities. -/
def empty : Model := ⟨∅⟩

/-- The model with one more entity, in the place of one with the same name. -/
def add (m : Model) (e : Entity) : Model := ⟨m.entities.put e⟩

/-- The entity of a name, or the error that there is none. -/
def entity (m : Model) (name : String) : Except ModelError Entity :=
  match m.entities.find? [name] with
  | some e => .ok e
  | none => .error (.unknownEntity name)

/-- The entity's and the field's name in a qualified name: the parts before and after the
    first point. -/
def splitQualified (qualified : String) : Option (String × String) :=
  let cs := qualified.toList
  match cs.dropWhile (· != '.') with
  | [] => none
  | _ :: field => some (String.ofList (cs.takeWhile (· != '.')), String.ofList field)

/-- The field of a qualified name. -/
def field (m : Model) (qualified : String) : Except ModelError Field := do
  let some (entity, field) := splitQualified qualified | .error (.unknownField qualified)
  (← m.entity entity).field field

/-- The fields of the given qualified names; the first unknown one is the error. -/
def fieldsOf (m : Model) (names : List String) : Except ModelError (List Field) :=
  names.mapM m.field

/-- The first foreign key whose target is not in the model. -/
def danglingKey? (m : Model) : Option (Field × String) :=
  (m.entities.toList.flatMap (·.fields.toList)).findSome? fun f =>
    match f.foreignTarget with
    | some target => if (m.entities.find? [target]).isNone then some (f, target) else none
    | none => none

/-- Accepts a model in which every foreign key points to an entity. -/
def validate (m : Model) : Except ModelError Unit :=
  match m.danglingKey? with
  | some (f, target) => .error (.danglingForeignKey f.qualifiedName target)
  | none => .ok ()

end Model

end IndexDesign
