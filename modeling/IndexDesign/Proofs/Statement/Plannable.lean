import IndexDesign.Proofs.Graph.Union
import IndexDesign.Proofs.Plan.Enumeration
import IndexDesign.Proofs.Statement.Update
import IndexDesign.Proofs.Statement.View

/-! # Queries that can be planned

    A query is made in one of two ways: it is built from a draft, or an update
    asks it for what maintaining an index takes.  Either way it has something
    to fetch, its edges join its entities, and every field that it names lies on
    its graph.  Nothing else about its making matters to the search. -/

namespace IndexDesign

variable {α : Type}

/-- What holds of every query that is made. -/
structure Query.IsPlannable (q : Query α) : Prop where
  /-- There is something to fetch. -/
  asks : q.required.isEmpty = false
  /-- The graph's edges join its entities. -/
  closed : q.graph.IsClosed
  /-- The fields that are named lie on the graph. -/
  onGraph : ∀ f ∈ q.named, f.entity ∈ q.graph.names

/-- The query can be planned and is about the entities of the model. -/
structure Query.IsOver (q : Query α) (m : Model) : Prop extends q.IsPlannable where
  entities : ∀ e ∈ q.graph.entities.toList, e ∈ m.entities.toList
  /-- It sorts by fields of the model. -/
  order : ∀ f ∈ q.orderBy, ∃ e ∈ m.entities.toList, f ∈ e.fields.toList

/-! ## Queries of drafts -/

/-- A query that is accepted can be planned. -/
theorem Query.isPlannable_of_build [Scalar α] [Rendered α] {m : Model} {d : Query.Draft α}
    {q : Query α} (h : Query.build m d = .ok q) : q.IsPlannable := by
  have haccepted := Query.isAccepted_of_build h
  obtain ⟨last, hgraph⟩ := haccepted.graph
  exact ⟨Query.required_of_build h, hgraph.closed, haccepted.covered⟩

/-- A field that is found in the model is one of an entity's. -/
theorem Model.exists_of_field_eq_ok {m : Model} {name : String} {f : Field}
    (h : m.field name = .ok f) : ∃ e ∈ m.entities.toList, f ∈ e.fields.toList := by
  simp only [Model.field] at h
  split at h
  · obtain ⟨e, he, h⟩ := exists_of_bind_eq_ok h
    simp only [Entity.field] at h
    split at h
    · next hfound =>
      rw [← Except.ok.inj h]
      exact ⟨e, (Model.of_entity_eq_ok he).1, (SortedSet.of_find? hfound).1⟩
    · exact nomatch h
  · exact nomatch h

/-- A query that is accepted is about the entities of the model, and sorts by their fields. -/
theorem Query.isOver_of_build [Scalar α] [Rendered α] {m : Model} {d : Query.Draft α}
    {q : Query α} (h : Query.build m d = .ok q) : q.IsOver m := by
  obtain ⟨last, hgraph⟩ := (Query.isAccepted_of_build h).graph
  refine ⟨Query.isPlannable_of_build h, hgraph.entities, fun f hf => ?_⟩
  obtain ⟨name, -, hname, -⟩ := Query.of_fieldsOn (Query.isMadeOf_of_build h).orderBy hf
  exact Model.exists_of_field_eq_ok hname

/-! ## Queries in support of updates -/

namespace Update

variable {m : Model} {d : Update.Draft α} {u : Update α} {i : Index}

/-- The fields that the update does not give are fields of the index. -/
theorem mem_names_of_mem_missing (hi : i.IsWellFormed) :
    ∀ f ∈ (u.missing i).toList, f.entity ∈ i.graph.names := fun _ hf =>
  hi.mem_names_of_mem_allFields (SortedSet.mem_of_mem_toList (List.mem_filter.mp hf).1)

/-- Identifiers that are pointed to lie on the graph, as its identifiers lie on their entities. -/
theorem mem_names_of_mem_pointedIds {g : JoinGraph}
    (hids : ∀ e ∈ g.entities.toList, e.id.entity = e.name) :
    ∀ f ∈ u.pointedIds g, f.entity ∈ g.names := by
  intro f hf
  obtain ⟨e, he, rfl⟩ := List.mem_map.mp hf
  obtain ⟨target, -, htarget⟩ := List.mem_filterMap.mp he
  obtain ⟨hmem, -⟩ := JoinGraph.mem_of_entity?_eq_some htarget
  rw [hids e hmem]
  exact List.mem_map.mpr ⟨e, hmem, rfl⟩

/-- What a support query asks for, and on which graph. -/
structure Asks (u : Update α) (i : Index) (graph : JoinGraph) (select eq : FieldSet) : Prop where
  asks : select.isEmpty = false
  closed : graph.IsClosed
  select : ∀ f ∈ select.toList, f.entity ∈ graph.names
  eq : ∀ f ∈ eq.toList, f.entity ∈ graph.names
  entities : ∀ e ∈ graph.entities.toList, e ∈ i.graph.entities.toList ∨ e ∈ u.graph.entities.toList

/-- What an update that is built asks for, to maintain a well-formed index whose graph is closed
    and whose identifiers lie on their entities. -/
theorem exists_asks_of_mem_supportQueries (hu : build m d = .ok u) (hi : i.IsWellFormed)
    (hclosed : i.graph.IsClosed) (hids : ∀ e ∈ i.graph.entities.toList, e.id.entity = e.name)
    {queries : List (Query α)}
    (h : u.supportQueries i = some queries) : ∀ q ∈ queries, ∃ graph select eq,
      q = u.supportQuery i graph select eq ∧ u.Asks i graph select eq := by
  intro q hq
  have haccepted := isAccepted_of_build hu
  simp only [supportQueries] at h
  split at h
  · rw [← Option.some.inj h] at hq
    exact nomatch hq
  · next hmissing =>
    rw [Bool.not_eq_true] at hmissing
    split at h
    -- an insert asks on parts of the index's graph
    · obtain ⟨found, hfound, h⟩ := Option.bind_eq_some_iff.mp h
      rw [← Option.some.inj h] at hq
      obtain ⟨q', hq', hsome⟩ := List.mem_filterMap.mp hq
      obtain ⟨part, hpart, hquery⟩ :=
        exists_of_forall₂_right (forall₂_of_mapM_eq_some _ _ hfound) hq'
      rw [id_eq] at hsome
      rw [hsome] at hquery
      simp only [partQuery] at hquery
      split at hquery
      · exact nomatch hquery
      · next hselect =>
        split at hquery
        · exact nomatch hquery
        · obtain ⟨component, -, rfl⟩ := List.mem_map.mp hpart
          refine ⟨_, _, _, (Option.some.inj (Option.some.inj hquery)).symm,
            Bool.eq_false_iff.mpr hselect, hclosed.subgraph _, fun f hf => ?_, fun f hf => ?_,
            fun e he => ?_⟩
          · exact JoinGraph.contains_iff.mp (List.mem_filter.mp hf).2
          · refine mem_names_of_mem_pointedIds (fun e he => ?_) f
              (SortedSet.mem_of_mem_toList_ofList hf)
            exact hids e (List.mem_filter.mp he).1
          · exact .inl (List.mem_filter.mp he).1
    -- an update or a delete asks on the index's graph together with its own
    all_goals
      split at h
      · exact nomatch h
      · rw [← Option.some.inj h] at hq
        obtain ⟨last, hgraph⟩ := haccepted.graph
        refine ⟨_, _, _, List.mem_singleton.mp hq, hmissing, hclosed.union hgraph.closed,
          fun f hf => ?_, fun f hf => ?_, fun e he => JoinGraph.mem_entities_union he⟩
        · exact JoinGraph.mem_names_union.mpr (.inl (mem_names_of_mem_missing hi f hf))
        · exact JoinGraph.mem_names_union.mpr (.inr (haccepted.conditions f hf))

/-- A support query names what it selects and its conditions. -/
theorem isPlannable_supportQuery {graph : JoinGraph} {select eq : FieldSet}
    (h : u.Asks i graph select eq) : (u.supportQuery i graph select eq).IsPlannable := by
  -- nothing is aggregated or grouped by
  have hrequired : (u.supportQuery i graph select eq).required = select := rfl
  refine ⟨hrequired ▸ h.asks, h.closed, fun f hf => ?_⟩
  simp only [Query.named, hrequired, List.mem_append] at hf
  rcases hf with (((hf | hf) | hf) | hf) | hf
  · exact h.eq f hf
  · cases hf
  · cases hf
  · cases hf
  · exact h.select f hf

/-- **SUPPORT QUERIES CAN BE PLANNED**: what an update that is built asks for, to maintain a
    well-formed index whose graph is closed and whose identifiers lie on their entities. -/
theorem isPlannable_of_mem_supportQueries (hu : build m d = .ok u) (hi : i.IsWellFormed)
    (hclosed : i.graph.IsClosed) (hids : ∀ e ∈ i.graph.entities.toList, e.id.entity = e.name)
    {queries : List (Query α)}
    (h : u.supportQueries i = some queries) : ∀ q ∈ queries, q.IsPlannable := by
  intro q hq
  obtain ⟨graph, select, eq, rfl, hasks⟩ :=
    exists_asks_of_mem_supportQueries hu hi hclosed hids h q hq
  exact isPlannable_supportQuery hasks

/-- A support query is about the entities of the update and the index, and sorts by nothing. -/
theorem isOver_of_mem_supportQueries (hu : build m d = .ok u) (hi : i.IsWellFormed)
    (hclosed : i.graph.IsClosed)
    (hentities : ∀ e ∈ i.graph.entities.toList, e ∈ m.entities.toList)
    (hids : ∀ e ∈ i.graph.entities.toList, e.id.entity = e.name) {queries : List (Query α)}
    (h : u.supportQueries i = some queries) : ∀ q ∈ queries, q.IsOver m := by
  intro q hq
  obtain ⟨graph, select, eq, rfl, hasks⟩ :=
    exists_asks_of_mem_supportQueries hu hi hclosed hids h q hq
  obtain ⟨last, hgraph⟩ := (isAccepted_of_build hu).graph
  refine ⟨isPlannable_supportQuery hasks, fun e he => ?_, fun f hf => nomatch hf⟩
  exact (hasks.entities e he).elim (hentities e) (hgraph.entities e)

end Update

end IndexDesign
