import IndexDesign.Proofs.Graph.Connected

/-! # Making and cutting join graphs

    The graph of an entity is closed, and so are joins of two entities with a
    closed graph and parts of one.  An edge that is given breaks this where it
    ends at a name that is no entity.

    In a closed graph a part on all entities is the whole, and a part has every
    edge between its entities.  In others these edges may have ends that the
    part cannot tell. -/

namespace IndexDesign.JoinGraph

variable {g h : JoinGraph} {e : Edge} {a b : String}

/-! ## Single entities and joins -/

variable {s t : Entity} {via : Field}

theorem names_single (e : Entity) : (single e).names = [e.name] := rfl

theorem not_mem_edges_single {x : Entity} : e ∉ (single x).edges := SortedSet.not_mem_empty

theorem mem_names_addEdge {edge : Edge} :
    a ∈ (g.addEdge edge s t).names ↔ t.name = a ∨ s.name = a ∨ a ∈ g.names := by
  show a ∈ entityNames ((g.entities.put s).put t) ↔ _
  rw [mem_entityNames_put, mem_entityNames_put]
  rfl

theorem mem_names_withEdge :
    a ∈ (g.withEdge s t via).names ↔ t.name = a ∨ s.name = a ∨ a ∈ g.names := mem_names_addEdge

theorem mem_edges_withEdge :
    e ∈ (g.withEdge s t via).edges ↔ key (⟨s.name, t.name, via⟩ : Edge) = key e ∨ e ∈ g.edges :=
  SortedSet.mem_insert

theorem isClosed_empty : (∅ : JoinGraph).IsClosed := fun _ he => absurd he List.not_mem_nil

theorem isClosed_single (x : Entity) : (single x).IsClosed := fun _ he =>
  absurd he List.not_mem_nil

/-- **GIVEN EDGES HAVE TO END AT ENTITIES**: a closed graph stays closed with a given edge exactly
    where this ends at entities of the new graph. -/
theorem isClosed_addEdge_iff (hg : g.IsClosed) {edge : Edge} :
    (g.addEdge edge s t).IsClosed ↔
      edge.source ∈ (g.addEdge edge s t).names ∧ edge.target ∈ (g.addEdge edge s t).names := by
  constructor
  · intro hclosed
    exact hclosed.mem_names_of_joins (SortedSet.mem_insert.mpr (.inl rfl)) (.inl ⟨rfl, rfl⟩)
  · intro hends e he
    rcases SortedSet.mem_place he with rfl | he
    · exact hends
    · obtain ⟨hsource, htarget⟩ := hg e he
      exact ⟨mem_names_addEdge.mpr (.inr (.inr hsource)),
        mem_names_addEdge.mpr (.inr (.inr htarget))⟩

theorem IsClosed.withEdge (hg : g.IsClosed) : (g.withEdge s t via).IsClosed :=
  (isClosed_addEdge_iff hg).mpr
    ⟨mem_names_withEdge.mpr (.inr (.inl rfl)), mem_names_withEdge.mpr (.inl rfl)⟩

/-! ## Parts of a graph -/

theorem mem_names_subgraph {keep : List String} :
    a ∈ (g.subgraph keep).names ↔ a ∈ g.names ∧ a ∈ keep := by
  simp only [names, subgraph, entityNames, SortedSet.filter, List.mem_map, List.mem_filter,
    List.contains_iff_mem]
  constructor
  · rintro ⟨e, ⟨he, hkeep⟩, rfl⟩
    exact ⟨⟨e, he, rfl⟩, hkeep⟩
  · rintro ⟨⟨e, he, rfl⟩, hkeep⟩
    exact ⟨e, ⟨he, hkeep⟩, rfl⟩

theorem mem_edges_subgraph {keep : List String} :
    e ∈ (g.subgraph keep).edges ↔ e ∈ g.edges ∧ e.source ∈ keep ∧ e.target ∈ keep := by
  have hends : ∀ f : Edge, key f = key e → f.source = e.source ∧ f.target = e.target := by
    intro f hkey
    obtain ⟨hsource, hkey⟩ := List.cons.inj hkey
    exact ⟨hsource, (List.cons.inj hkey).1⟩
  show e ∈ g.edges.filter _ ↔ _
  rw [SortedSet.mem_filter, SortedSet.mem_iff]
  simp only [Bool.and_eq_true, List.contains_iff_mem]
  constructor
  · rintro ⟨f, hf, hkeep, hkey⟩
    rw [(hends f hkey).1, (hends f hkey).2] at hkeep
    exact ⟨⟨f, hf, hkey⟩, hkeep⟩
  · rintro ⟨⟨f, hf, hkey⟩, hkeep⟩
    rw [← (hends f hkey).1, ← (hends f hkey).2] at hkeep
    exact ⟨f, hf, hkeep, hkey⟩

theorem mem_names_without {drop : List String} :
    a ∈ (g.without drop).names ↔ a ∈ g.names ∧ a ∉ drop := by
  rw [without, mem_names_subgraph, List.mem_filter]
  simp

theorem IsClosed.subgraph (hg : g.IsClosed) (keep : List String) : (g.subgraph keep).IsClosed := by
  intro e he
  obtain ⟨he, hkeep⟩ := List.mem_filter.mp he
  rw [Bool.and_eq_true, List.contains_iff_mem, List.contains_iff_mem] at hkeep
  obtain ⟨hsource, htarget⟩ := hg e he
  exact ⟨mem_names_subgraph.mpr ⟨hsource, hkeep.1⟩, mem_names_subgraph.mpr ⟨htarget, hkeep.2⟩⟩

/-- The part on entities of a graph is closed, whatever other edges the graph has. -/
theorem isClosed_subgraph {keep : List String} (hkeep : ∀ v ∈ keep, v ∈ g.names) :
    (g.subgraph keep).IsClosed := by
  intro e he
  have hends := (List.mem_filter.mp he).2
  rw [Bool.and_eq_true, List.contains_iff_mem, List.contains_iff_mem] at hends
  exact ⟨mem_names_subgraph.mpr ⟨hkeep _ hends.1, hends.1⟩,
    mem_names_subgraph.mpr ⟨hkeep _ hends.2, hends.2⟩⟩

theorem isClosed_without (g : JoinGraph) (drop : List String) : (g.without drop).IsClosed :=
  isClosed_subgraph fun _ hv => (List.mem_filter.mp hv).1

theorem IsClosed.mem_edges_without (hg : g.IsClosed) {drop : List String} :
    e ∈ (g.without drop).edges ↔ e ∈ g.edges ∧ e.source ∉ drop ∧ e.target ∉ drop := by
  rw [JoinGraph.without, mem_edges_subgraph]
  refine and_congr_right fun he => ?_
  obtain ⟨hsource, htarget⟩ := hg.mem_names_of_joins he (.inl ⟨rfl, rfl⟩)
  simp [List.mem_filter, hsource, htarget]

/-- A graph is its entities and its edges. -/
theorem eq_of_toList_eq (hentities : g.entities.toList = h.entities.toList)
    (hedges : g.edges.toList = h.edges.toList) : g = h := by
  cases g
  cases h
  cases SortedSet.eq_of_toList_eq hentities
  cases SortedSet.eq_of_toList_eq hedges
  rfl

/-- The part on no entity. -/
theorem subgraph_nil (g : JoinGraph) : g.subgraph [] = ∅ :=
  eq_of_toList_eq (List.filter_eq_nil_iff.mpr fun _ _ => Bool.false_ne_true)
    (List.filter_eq_nil_iff.mpr fun _ _ => Bool.false_ne_true)

/-- The part on all entities. -/
theorem IsClosed.subgraph_eq_self (hg : g.IsClosed) {keep : List String}
    (hall : ∀ v ∈ g.names, v ∈ keep) : g.subgraph keep = g := by
  refine eq_of_toList_eq (List.filter_eq_self.mpr fun e he => ?_)
    (List.filter_eq_self.mpr fun e he => ?_)
  · exact List.contains_iff_mem.mpr (hall e.name (List.mem_map_of_mem he))
  · obtain ⟨hsource, htarget⟩ := hg e he
    rw [Bool.and_eq_true, List.contains_iff_mem, List.contains_iff_mem]
    exact ⟨hall _ hsource, hall _ htarget⟩

/-- What is left of a part without some of its entities is the part on the others. -/
theorem IsClosed.without_subgraph (hg : g.IsClosed) {drop keep : List String}
    (hdisjoint : ∀ v ∈ keep, v ∉ drop) :
    (g.subgraph (drop ++ keep)).without drop = g.subgraph keep := by
  have hkept : ∀ v ∈ g.names,
      (v ∈ drop ++ keep ∧ v ∈ (g.subgraph (drop ++ keep)).names.filter (! drop.contains ·))
        ↔ v ∈ keep := by
    intro v hv
    simp only [List.mem_filter, mem_names_subgraph, Bool.not_eq_true', Bool.eq_false_iff, ne_eq,
      List.contains_iff_mem, List.mem_append]
    constructor
    · rintro ⟨hmem, -, hnot⟩
      exact hmem.resolve_left hnot
    · intro hkeep
      exact ⟨.inr hkeep, ⟨hv, .inr hkeep⟩, hdisjoint v hkeep⟩
  refine eq_of_toList_eq ?_ ?_
  · show (g.entities.toList.filter _).filter _ = g.entities.toList.filter _
    rw [List.filter_filter]
    refine List.filter_congr fun e he => ?_
    rw [Bool.eq_iff_iff, Bool.and_eq_true, List.contains_iff_mem, List.contains_iff_mem,
      List.contains_iff_mem, and_comm]
    exact hkept e.name (List.mem_map_of_mem he)
  · show (g.edges.toList.filter _).filter _ = g.edges.toList.filter _
    rw [List.filter_filter]
    refine List.filter_congr fun e he => ?_
    obtain ⟨hsource, htarget⟩ := hg e he
    rw [Bool.eq_iff_iff]
    simp only [Bool.and_eq_true, List.contains_iff_mem]
    rw [← hkept e.source hsource, ← hkept e.target htarget]
    tauto

end IndexDesign.JoinGraph
