import IndexDesign.Model
import IndexDesign.Proofs.Pointwise
import IndexDesign.Proofs.SortedSet

/-! # What declarations give

    An entity that is built from declarations has only fields of its own, and
    its identifier is one of them.  It has at least one row, and each field at
    least one value.

    An entity may be declared with several identifiers.  Each of them is a field
    of the identifier type and only the last is the entity's identifier, so the
    fields of that type are the identifier alone exactly where one is
    declared. -/

namespace IndexDesign

/-- The entities of the model are built from declarations. -/
def Model.IsBuilt (m : Model) : Prop :=
  ∀ e ∈ m.entities.toList, ∃ name count declarations, Entity.build name count declarations = .ok e

/-- The declaration gives the entity a field of the identifier type. -/
def Declaration.isIdentifier : Declaration → Bool
  | .identifier .. => true
  | .field _ type _ => type == .id
  | .cardinality .. => false

namespace Entity

/-- The fields of the identifier type. -/
def identifiers (e : Entity) : List Field := e.fields.toList.filter (·.isId)

variable {name : String} {count : Nat} {fields : List Field}

/-- The field belongs to the entity and has at least one value. -/
def Owns (name : String) (f : Field) : Prop := f.entity = name ∧ 1 ≤ f.cardinality

theorem owns_withCardinality {f : Field} {cardinality : Nat} (h : f.entity = name) :
    Owns name (f.withCardinality cardinality) := ⟨h, Nat.le_max_right cardinality 1⟩

theorem owns_of_mem_recount {field : String} {cardinality : Nat}
    (h : ∀ f ∈ fields, Owns name f) : ∀ f ∈ recount field cardinality fields, Owns name f := by
  induction fields with
  | nil => exact h
  | cons g fields ih =>
      obtain ⟨hg, hfields⟩ := List.forall_mem_cons.mp h
      simp only [recount]
      split
      · exact List.forall_mem_cons.mpr ⟨owns_withCardinality hg.1, hfields⟩
      · exact List.forall_mem_cons.mpr ⟨hg, ih hfields⟩

/-- Every declaration is about fields of the entity. -/
theorem owns_of_mem_declare {d : Draft} (declaration : Declaration)
    (h : ∀ f ∈ d.fields, Owns name f) :
    ∀ f ∈ (d.declare name count declaration).fields, Owns name f := by
  cases declaration with
  | identifier id partners =>
      refine List.forall_mem_append.mpr ⟨h, List.forall_mem_singleton.mpr ?_⟩
      exact owns_withCardinality (f := .ofType name id .id) rfl
  | field field type cardinality =>
      refine List.forall_mem_append.mpr ⟨h, List.forall_mem_singleton.mpr ?_⟩
      exact owns_withCardinality (f := .ofType name field type) rfl
  | cardinality field cardinality => exact owns_of_mem_recount h

theorem owns_of_mem_foldl_declare (declarations : List Declaration) : ∀ d : Draft,
    (∀ f ∈ d.fields, Owns name f) →
    ∀ f ∈ (declarations.foldl (Draft.declare name count) d).fields, Owns name f := by
  induction declarations with
  | nil => intro d h; exact h
  | cons declaration declarations ih =>
      intro d h
      exact ih _ (owns_of_mem_declare declaration h)

theorem mem_of_mem_collect (fields : List Field) : ∀ {taken collected : FieldSet} {f : Field},
    collect name fields taken = .ok collected → f ∈ collected.toList →
      f ∈ taken.toList ∨ f ∈ fields := by
  induction fields with
  | nil =>
      intro taken collected f h hf
      rw [← Except.ok.inj h] at hf
      exact .inl hf
  | cons g fields ih =>
      intro taken collected f h hf
      simp only [collect] at h
      split at h
      · exact nomatch h
      · rcases ih h hf with hf | hf
        · rcases SortedSet.mem_place hf with rfl | hf
          · exact .inr List.mem_cons_self
          · exact .inl hf
        · exact .inr (List.mem_cons_of_mem _ hf)

/-- What the declarations give. -/
def drafted (name : String) (count : Nat) (declarations : List Declaration) : Draft :=
  declarations.foldl (Draft.declare name (max count 1)) ⟨[], none⟩

variable {declarations : List Declaration} {e : Entity}

/-- An entity has the fields that are declared, and the declared identifier among them. -/
theorem build_spec (h : build name count declarations = .ok e) :
    e.name = name ∧ collect name (drafted name count declarations).fields ∅ = .ok e.fields
      ∧ ∃ idName, (drafted name count declarations).id = some idName
        ∧ e.fields.find? [name, idName] = some e.id := by
  simp only [build] at h
  split at h
  · next idName hid =>
    obtain ⟨fields, hcollect, h⟩ := exists_of_bind_eq_ok h
    split at h
    · next id hfound =>
      split at h
      · exact nomatch h
      · rw [← Except.ok.inj h]
        exact ⟨rfl, hcollect, idName, hid, hfound⟩
    · exact nomatch h
  · exact nomatch h

theorem owns_of_mem_drafted {f : Field} (h : f ∈ (drafted name count declarations).fields) :
    Owns name f :=
  owns_of_mem_foldl_declare declarations ⟨[], none⟩ (fun _ h => nomatch h) f h

/-- The fields of an entity are its own, and each has at least one value. -/
theorem owns_of_build (h : build name count declarations = .ok e) :
    ∀ f ∈ e.fields.toList, Owns e.name f := by
  obtain ⟨hname, hcollect, -⟩ := build_spec h
  intro f hf
  rcases mem_of_mem_collect _ hcollect hf with hf | hf
  · exact nomatch hf
  · rw [hname]
    exact owns_of_mem_drafted hf

theorem entity_of_build (h : build name count declarations = .ok e) :
    ∀ f ∈ e.fields.toList, f.entity = e.name := fun f hf => (owns_of_build h f hf).1

/-- An entity has at least one row. -/
theorem one_le_count_of_build (h : build name count declarations = .ok e) : 1 ≤ e.count := by
  simp only [build] at h
  split at h
  · obtain ⟨fields, -, h⟩ := exists_of_bind_eq_ok h
    split at h
    · split at h
      · exact nomatch h
      · rw [← Except.ok.inj h]
        exact Nat.le_max_right count 1
    · exact nomatch h
  · exact nomatch h

/-- The identifier of an entity is one of its fields. -/
theorem id_mem_fields_of_build (h : build name count declarations = .ok e) :
    e.id ∈ e.fields.toList := by
  obtain ⟨-, -, idName, -, hfound⟩ := build_spec h
  exact (SortedSet.of_find? hfound).1

theorem id_entity_of_build (h : build name count declarations = .ok e) : e.id.entity = e.name :=
  entity_of_build h e.id (id_mem_fields_of_build h)

/-! ## Fields of the identifier type -/

theorem countP_isId_recount (field : String) (cardinality : Nat) (fields : List Field) :
    (recount field cardinality fields).countP (·.isId) = fields.countP (·.isId) := by
  induction fields with
  | nil => rfl
  | cons f fields ih =>
      simp only [recount]
      split
      · rw [List.countP_cons, List.countP_cons]
        rfl
      · rw [List.countP_cons, List.countP_cons, ih]

/-- A declaration of an identifier adds one field of the identifier type, and no other does. -/
theorem countP_isId_declare (d : Draft) (declaration : Declaration) :
    (d.declare name count declaration).fields.countP (·.isId)
      = d.fields.countP (·.isId) + if declaration.isIdentifier then 1 else 0 := by
  cases declaration with
  | identifier id partners => exact List.countP_append
  | field field type cardinality =>
      simp only [Draft.declare, List.countP_append, List.countP_singleton]
      rfl
  | cardinality field cardinality => exact countP_isId_recount field cardinality d.fields

theorem countP_isId_foldl_declare (declarations : List Declaration) : ∀ d : Draft,
    (declarations.foldl (Draft.declare name count) d).fields.countP (·.isId)
      = d.fields.countP (·.isId) + declarations.countP (·.isIdentifier) := by
  induction declarations with
  | nil => intro d; rfl
  | cons declaration declarations ih =>
      intro d
      rw [List.foldl_cons, ih, countP_isId_declare, List.countP_cons]
      omega

/-- The identifier of a draft is the name of a field of the identifier type. -/
def Draft.IsIdentified (d : Draft) : Prop :=
  ∀ id, d.id = some id → ∃ f ∈ d.fields, f.name = id ∧ f.isId = true

theorem exists_mem_recount {id field : String} {cardinality : Nat}
    (h : ∃ f ∈ fields, f.name = id ∧ f.isId = true) :
    ∃ f ∈ recount field cardinality fields, f.name = id ∧ f.isId = true := by
  induction fields with
  | nil => exact h
  | cons g fields ih =>
      simp only [recount]
      rw [List.exists_mem_cons_iff] at h
      split
      · exact (List.exists_mem_cons_iff ..).mpr h
      · exact (List.exists_mem_cons_iff ..).mpr (h.imp_right ih)

theorem isIdentified_declare {d : Draft} (declaration : Declaration) (h : d.IsIdentified) :
    (d.declare name count declaration).IsIdentified := by
  cases declaration with
  | identifier idName partners =>
      intro id hid
      exact ⟨_, List.mem_append_right _ List.mem_cons_self, Option.some.inj hid, rfl⟩
  | field field type cardinality =>
      intro id hid
      obtain ⟨f, hf, hfound⟩ := h id hid
      exact ⟨f, List.mem_append_left _ hf, hfound⟩
  | cardinality field cardinality =>
      intro id hid
      exact exists_mem_recount (h id hid)

theorem isIdentified_foldl_declare (declarations : List Declaration) : ∀ d : Draft,
    d.IsIdentified → (declarations.foldl (Draft.declare name count) d).IsIdentified := by
  induction declarations with
  | nil => intro d h; exact h
  | cons declaration declarations ih =>
      intro d h
      exact ih _ (isIdentified_declare declaration h)

/-- The fields that are collected are all that were given: none is told apart from another by
    less than its name. -/
theorem perm_of_collect (fields : List Field) : ∀ {taken collected : FieldSet},
    collect name fields taken = .ok collected →
      collected.toList.Perm (fields ++ taken.toList) := by
  induction fields with
  | nil =>
      intro taken collected h
      rw [← Except.ok.inj h]
      exact .refl _
  | cons f fields ih =>
      intro taken collected h
      simp only [collect] at h
      split at h
      · exact nomatch h
      · next hnew =>
        have hplaced := (SortedSet.perm_insert hnew).append_left fields
        exact (ih h).trans (hplaced.trans List.perm_middle)

theorem perm_fields_of_build (h : build name count declarations = .ok e) :
    e.fields.toList.Perm (drafted name count declarations).fields := by
  have hperm := perm_of_collect _ (build_spec h).2.1
  rwa [show (∅ : FieldSet).toList = [] from rfl, List.append_nil] at hperm

/-- An entity has as many fields of the identifier type as are declared. -/
theorem length_identifiers_of_build (h : build name count declarations = .ok e) :
    e.identifiers.length = declarations.countP (·.isIdentifier) := by
  rw [identifiers, ← List.countP_eq_length_filter, (perm_fields_of_build h).countP_eq, drafted,
    countP_isId_foldl_declare]
  exact Nat.zero_add _

/-- The identifier of an entity is of the identifier type. -/
theorem id_mem_identifiers_of_build (h : build name count declarations = .ok e) :
    e.id ∈ e.identifiers := by
  obtain ⟨hname, -, idName, hid, hfound⟩ := build_spec h
  have hmem := id_mem_fields_of_build h
  obtain ⟨f, hf, hfname, hfId⟩ :=
    isIdentified_foldl_declare declarations ⟨[], none⟩ (fun _ h => nomatch h) idName hid
  have hkey : key f = key e.id := by
    rw [(SortedSet.of_find? hfound).2, ← (owns_of_mem_drafted hf).1, ← hfname]
    rfl
  have hfields := (perm_fields_of_build h).mem_iff.mpr hf
  rw [SortedSet.eq_of_key_eq hfields hmem hkey] at hfId
  exact List.mem_filter.mpr ⟨hmem, hfId⟩

/-- The only field of the identifier type is the identifier. -/
theorem identifiers_eq_of_length (h : build name count declarations = .ok e)
    (hlength : e.identifiers.length = 1) : e.identifiers = [e.id] := by
  obtain ⟨f, hf⟩ := List.length_eq_one_iff.mp hlength
  have hmem := id_mem_identifiers_of_build h
  rw [hf, List.mem_singleton] at hmem
  rw [hf, hmem]

/-- **ONE IDENTIFIER**: the identifier is the only field of its type exactly where one is
    declared. -/
theorem identifiers_eq_iff (h : build name count declarations = .ok e) :
    e.identifiers = [e.id] ↔ declarations.countP (·.isIdentifier) = 1 := by
  rw [← length_identifiers_of_build h]
  constructor
  · intro heq
    rw [heq]
    rfl
  · exact identifiers_eq_of_length h

end Entity

end IndexDesign
