import IndexDesign.Proofs.Entity
import IndexDesign.Proofs.Graph.JoinOrder
import IndexDesign.Proofs.Graph.Path
import IndexDesign.Proofs.Index.Build
import IndexDesign.Proofs.Plan.Runs
import IndexDesign.Proofs.Statement.Build
import IndexDesign.Statement.View

/-! # Views are well formed

    A query that is accepted is about a connected graph of entities of its
    model, and all its fields lie on the graph.  Its view is made of these
    fields and of the identifiers along the join order, which has every entity
    of the graph; so the view keeps every rule for indexes. -/

namespace IndexDesign

variable {α : Type}

/-! ## Queries that are accepted -/

namespace Query

variable {m : Model} {q : Query α}

/-- All fields that the query names. -/
def named (q : Query α) : List Field :=
  q.eq.toList ++ q.range.toList ++ q.groupBy.toList ++ q.orderBy ++ q.required.toList

/-- What a query over the model that is accepted has passed. -/
structure IsAccepted (m : Model) (q : Query α) : Prop where
  graph : ∃ last, JoinGraph.IsConnectedAt m q.graph last
  covered : ∀ f ∈ q.named, f.entity ∈ q.graph.names

theorem mem_names_of_fieldOn {g : JoinGraph} {name : String} {f : Field}
    (h : fieldOn m g name = .ok f) : f.entity ∈ g.names :=
  JoinGraph.contains_iff.mp (of_fieldOn h).2

theorem mem_names_of_fieldsOn {g : JoinGraph} {names : List String} {fields : List Field}
    (h : fieldsOn m g names = .ok fields) : ∀ f ∈ fields, f.entity ∈ g.names := by
  intro f hf
  obtain ⟨name, -, -, hcovers⟩ := of_fieldsOn h hf
  exact JoinGraph.contains_iff.mp hcovers

theorem mem_names_of_aggregatesOn {g : JoinGraph} {names : List (AggregateFunction × String)}
    {aggregates : List Aggregate} (h : aggregatesOn m g names = .ok aggregates) :
    ∀ a ∈ aggregates, a.field.entity ∈ g.names := by
  intro a ha
  obtain ⟨name, -, hname⟩ := exists_of_forall₂_right ((mapM_eq_ok_iff names aggregates).mp h) ha
  obtain ⟨field, hfield, hname⟩ := exists_of_bind_eq_ok hname
  rw [← Except.ok.inj hname]
  exact mem_names_of_fieldOn hfield

/-- A query that is accepted names fields of a connected graph of entities of the model. -/
theorem isAccepted_of_build [Scalar α] [Rendered α] {d : Draft α} (h : build m d = .ok q) :
    q.IsAccepted m := by
  have hmade := isMadeOf_of_build h
  refine ⟨JoinGraph.isConnectedAt_ofPath hmade.graph, fun f hf => ?_⟩
  have hof : ∀ {set : FieldSet} {names : List String},
      (∃ fields, fieldsOn m q.graph names = .ok fields ∧ set = SortedSet.ofList fields) →
        f ∈ set.toList → f.entity ∈ q.graph.names := by
    rintro set names ⟨fields, hfields, rfl⟩ hmem
    exact mem_names_of_fieldsOn hfields f (SortedSet.mem_of_mem_toList_ofList hmem)
  simp only [named, required, List.mem_append] at hf
  rcases hf with (((hf | hf) | hf) | hf) | hf
  · exact hof hmade.eq hf
  · exact hof hmade.range hf
  · exact hof hmade.groupBy hf
  · exact mem_names_of_fieldsOn hmade.orderBy f hf
  · rcases SortedSet.mem_toList_extend hf with hf | hf
    · rcases SortedSet.mem_toList_extend hf with hf | hf
      · exact hof hmade.select hf
      · obtain ⟨a, ha, rfl⟩ := List.mem_map.mp hf
        obtain ⟨found, hfound, haggregates⟩ := hmade.aggregates
        rw [haggregates] at ha
        exact mem_names_of_aggregatesOn hfound a (SortedSet.mem_of_mem_toList_extend ha)
    · exact hof hmade.groupBy hf

/-! ## The view -/

variable {head : Entity} {f : Field}

/-- The entity at which an accepted query starts. -/
theorem exists_head (hg : q.graph.KeepsWalks) (hne : q.joinOrder ≠ []) :
    ∃ head ∈ q.graph.entities.toList, q.head? = some head ∧ q.joinOrder.head? = some head.name := by
  obtain ⟨name, rest, horder⟩ := List.exists_cons_of_ne_nil hne
  have hname : name ∈ q.graph.names := by
    refine (JoinGraph.joinOrder_sound hg q.eq).2 name ?_
    show name ∈ q.joinOrder
    rw [horder]
    exact List.mem_cons_self
  obtain ⟨head, hhead, rfl⟩ := List.mem_map.mp hname
  refine ⟨head, hhead, ?_, by rw [horder]; rfl⟩
  rw [head?, horder]
  exact JoinGraph.entity?_eq_some_of_mem hhead

theorem mem_identifiers_iff :
    f ∈ q.identifiers ↔ ∃ e ∈ q.graph.entities.toList, e.name ∈ q.joinOrder ∧ e.id = f := by
  simp only [identifiers, List.mem_map, List.mem_filterMap]
  constructor
  · rintro ⟨e, ⟨name, hname, hentity⟩, rfl⟩
    obtain ⟨he, rfl⟩ := JoinGraph.mem_of_entity?_eq_some hentity
    exact ⟨e, he, hname, rfl⟩
  · rintro ⟨e, he, hname, rfl⟩
    exact ⟨e, ⟨e.name, hname, JoinGraph.entity?_eq_some_of_mem he⟩, rfl⟩

theorem viewPartition_ne_nil (q : Query α) (head : Entity) : q.viewPartition head ≠ [] := by
  simp only [viewPartition]
  split
  · exact List.cons_ne_nil _ _
  · next hne => exact hne

/-- The partition of the view lies on the entity at which the query starts. -/
theorem of_mem_viewPartition (hf : f ∈ q.viewPartition head) :
    (f = head.id ∨ f ∈ q.eq.toList) ∧ (head.id.entity = head.name → f.entity = head.name) := by
  simp only [viewPartition] at hf
  split at hf
  · rw [List.mem_singleton.mp hf]
    exact ⟨.inl rfl, id⟩
  · obtain ⟨heq, hentity⟩ := List.mem_filter.mp hf
    exact ⟨.inr heq, fun _ => eq_of_beq hentity⟩

/-- A view is asked for with its partition, what the query names and the identifiers of the
    entities that it joins. -/
theorem mem_viewDraft_iff :
    f ∈ (q.viewDraft head).partition ++ (q.viewDraft head).ordered ++ (q.viewDraft head).extra
      ↔ f ∈ q.viewPartition head ∨ f ∈ q.named ∨ f ∈ q.identifiers := by
  simp only [viewDraft, viewOrder, named, List.mem_append]
  tauto

theorem mem_stored_view (hf : f ∈ q.named ∨ f ∈ q.identifiers) :
    f ∈ (q.viewDraft head).normalize.stored :=
  Index.mem_stored_normalize (mem_viewDraft_iff.mpr (.inr hf))

theorem onOneEntity_of_forall {fs : List Field} {name : String} (h : ∀ f ∈ fs, f.entity = name) :
    Index.onOneEntity fs = true := by
  cases fs with
  | nil => rfl
  | cons f fs =>
      simp only [Index.onOneEntity, List.all_eq_true, beq_iff_eq]
      intro g hg
      rw [h g (List.mem_cons_of_mem _ hg), h f List.mem_cons_self]

/-- Identifiers lie on their entities. -/
theorem id_entity_of_mem (hm : m.IsBuilt) (hq : q.IsAccepted m) {e : Entity}
    (he : e ∈ q.graph.entities.toList) : e.id.entity = e.name := by
  obtain ⟨last, hgraph⟩ := hq.graph
  obtain ⟨name, count, declarations, hbuild⟩ := hm e (hgraph.entities e he)
  exact Entity.id_entity_of_build hbuild

/-- What is aggregated is asked for. -/
theorem field_mem_required {a : Aggregate} (ha : a ∈ q.aggregates.toList) :
    a.field ∈ q.required := by
  refine SortedSet.mem_union.mpr (.inl (SortedSet.mem_extend.mpr (.inr ?_)))
  exact ⟨a.field, List.mem_map_of_mem ha, rfl⟩

theorem mem_named_of_mem_eq (hf : f ∈ q.eq.toList) : f ∈ q.named := by
  simp only [named, List.mem_append]
  tauto

theorem mem_named_of_mem_groupBy (hf : f ∈ q.groupBy.toList) : f ∈ q.named := by
  simp only [named, List.mem_append]
  tauto

theorem mem_named_of_mem_range (hf : f ∈ q.range.toList) : f ∈ q.named := by
  simp only [named, List.mem_append]
  tauto

theorem mem_named_of_mem_orderBy (hf : f ∈ q.orderBy) : f ∈ q.named := by
  simp only [named, List.mem_append]
  tauto

theorem mem_named_of_mem_required (hf : f ∈ q.required.toList) : f ∈ q.named :=
  List.mem_append_right _ hf

/-- Every field of the view was asked for, and what is asked for lies on the graph. -/
theorem mem_names_of_mem_view (hm : m.IsBuilt) (hq : q.IsAccepted m)
    (hhead : head ∈ q.graph.entities.toList)
    (hf : f ∈ (q.viewDraft head).normalize.stored.toList) : f.entity ∈ q.graph.names := by
  rcases mem_viewDraft_iff.mp (Index.mem_of_mem_stored_normalize hf) with hf | hf | hf
  · rw [(of_mem_viewPartition hf).2 (id_entity_of_mem hm hq hhead)]
    exact List.mem_map.mpr ⟨head, hhead, rfl⟩
  · exact hq.covered f hf
  · obtain ⟨e, he, -, rfl⟩ := mem_identifiers_iff.mp hf
    rw [id_entity_of_mem hm hq he]
    exact List.mem_map.mpr ⟨e, he, rfl⟩

theorem coversField_of_mem_referenced (hm : m.IsBuilt) (hq : q.IsAccepted m)
    (hhead : head ∈ q.graph.entities.toList)
    (hf : f ∈ (q.viewDraft head).normalize.referenced) : q.graph.coversField f = true := by
  refine JoinGraph.contains_iff.mpr ?_
  rcases List.mem_append.mp hf with hf | hf
  · rcases List.mem_append.mp hf with hf | hf
    · exact mem_names_of_mem_view hm hq hhead hf
    · exact hq.covered f (mem_named_of_mem_groupBy (SortedSet.mem_of_mem_toList_ofList hf))
  · obtain ⟨a, ha, rfl⟩ := List.mem_map.mp hf
    obtain ⟨f, hf, hkey⟩ := SortedSet.mem_iff.mp
      (field_mem_required (SortedSet.mem_of_mem_toList_ofList ha))
    rw [← (List.cons.inj hkey).1]
    exact hq.covered f (mem_named_of_mem_required hf)

/-- The identifiers along the join order are those of all entities. -/
theorem keysEntity_view (hg : q.graph.IsJoined) (hne : q.joinOrder ≠ [])
    {e : Entity} (he : e ∈ q.graph.entities.toList) :
    (q.viewDraft head).normalize.keysEntity e = true := by
  have hname : e.name ∈ q.joinOrder :=
    (JoinGraph.mem_joinOrder_iff hg hne).mpr (List.mem_map.mpr ⟨e, he, rfl⟩)
  have hid : e.id ∈ q.identifiers := mem_identifiers_iff.mpr ⟨e, he, hname, rfl⟩
  have horder : e.id ∈ (q.viewDraft head).ordered := by
    simp only [viewDraft, viewOrder, List.mem_append]
    tauto
  simp only [Index.keysEntity, Bool.or_eq_true, List.any_eq_true]
  rcases Index.exists_mem_distinctOutside _ (SortedSet.ofList (q.viewPartition head)) horder with
    hf | ⟨f, hf, hkey⟩
  · exact .inl hf
  · refine .inr ⟨f, hf, ?_⟩
    obtain ⟨hentity, hkey⟩ := List.cons.inj hkey
    simp [Field.same, hentity, (List.cons.inj hkey).1]

/-- **VIEWS ARE WELL FORMED**: over a model of built entities, the view of an accepted query that
    has a join order keeps every rule for indexes. -/
theorem isWellFormed_view (hm : m.IsBuilt) (hq : q.IsAccepted m)
    (hhead : head ∈ q.graph.entities.toList) (hne : q.joinOrder ≠ []) :
    (q.viewDraft head).normalize.IsWellFormed := by
  obtain ⟨last, hgraph⟩ := hq.graph
  refine ⟨?_, ?_, ?_, hgraph.connected, fun f hf => coversField_of_mem_referenced hm hq hhead hf,
    fun e he => keysEntity_view hgraph.isJoined hne he, ?_, ?_⟩
  · obtain ⟨f, hf⟩ := List.exists_mem_of_ne_nil _ (viewPartition_ne_nil q head)
    refine Bool.eq_false_iff.mpr fun hempty => SortedSet.isEmpty_iff.mp hempty f ?_
    exact SortedSet.mem_ofList.mpr ⟨f, hf, rfl⟩
  · exact onOneEntity_of_forall fun f hf => (of_mem_viewPartition
      (SortedSet.mem_of_mem_toList_ofList hf)).2 (id_entity_of_mem hm hq hhead)
  · refine Bool.eq_false_iff.mpr fun hempty => ?_
    exact SortedSet.isEmpty_iff.mp hempty head (SortedSet.mem_of_mem_toList hhead)
  · intro a ha
    obtain ⟨f, hf, hkey⟩ := SortedSet.mem_iff.mp
      (field_mem_required (SortedSet.mem_of_mem_toList_ofList ha))
    exact (SortedSet.mem_congr hkey).mp (mem_stored_view (.inl (mem_named_of_mem_required hf)))
  · intro f hf
    refine mem_stored_view (.inl (mem_named_of_mem_groupBy ?_))
    exact SortedSet.mem_of_mem_toList_ofList hf

/-- The view of a query with a join order is built. -/
theorem exists_view (hm : m.IsBuilt) (hq : q.IsAccepted m) (hne : q.joinOrder ≠ []) :
    ∃ head ∈ q.graph.entities.toList, q.joinOrder.head? = some head.name
      ∧ q.view = .ok (q.viewDraft head).normalize := by
  obtain ⟨last, hgraph⟩ := hq.graph
  obtain ⟨head, hmem, hhead, hfirst⟩ := exists_head hgraph.isJoined.keepsWalks hne
  refine ⟨head, hmem, hfirst, ?_⟩
  rw [view, hhead]
  exact Index.build_eq_ok_iff.mpr ⟨rfl, isWellFormed_view hm hq hmem hne⟩

end Query

end IndexDesign
