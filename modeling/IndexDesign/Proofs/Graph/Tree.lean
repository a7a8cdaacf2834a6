import IndexDesign.Proofs.Graph.Closed

/-! # Trees — join graphs without cycles

    In a tree every edge is a bridge: without it, its ends are in different
    parts.  So a connected part of a tree has all edges of the tree between its
    entities, and an edge that leads out of the part cannot be replaced by a
    walk elsewhere.

    A tree grows by an entity that is joined to one of the tree; the graph of a
    path of distinct entities is made this way. -/

namespace IndexDesign.JoinGraph

variable {g h : JoinGraph} {e : Edge} {a b : String}

/-- The graph joins its entities and is connected, without cycles, self-loops and parallel
    edges. -/
structure IsTree (g : JoinGraph) : Prop where
  closed : g.IsClosed
  connected : g.isConnected = true
  acyclic : g.adjacency.IsAcyclic
  /-- No edge joins an entity to itself. -/
  loopless : ∀ e ∈ g.edges, e.source ≠ e.target
  /-- No two edges join the same entities. -/
  simple : ∀ e ∈ g.edges, ∀ f ∈ g.edges, ∀ a b, e.Joins a b → f.Joins a b → key e = key f

theorem IsTree.isJoined (hg : g.IsTree) : g.IsJoined := hg.closed.isJoined hg.connected

/-- Every edge of the first graph is one of the second. -/
def EdgesWithin (h g : JoinGraph) : Prop := ∀ e ∈ h.edges, e ∈ g.edges

theorem edgesWithin_without (g : JoinGraph) (drop : List String) :
    (g.without drop).EdgesWithin g := fun _ he => (mem_edges_subgraph.mp he).1

theorem adjacency_mono (hin : h.EdgesWithin g) : h.adjacency ≤ g.adjacency := by
  intro a b hadj
  obtain ⟨hne, e, he, hjoins⟩ := adj_iff.mp hadj
  exact adj_iff.mpr ⟨hne, e, hin e he, hjoins⟩

theorem ne_of_joins (hg : g.IsTree) (he : e ∈ g.edges) (hjoins : e.Joins a b) : a ≠ b := by
  rintro rfl
  refine hg.loopless e he ?_
  rcases hjoins with ⟨hs, ht⟩ | ⟨hs, ht⟩
  · rw [hs, ht]
  · rw [hs, ht]

/-! ## Bridges -/

/-- In an acyclic graph an edge cannot be replaced by a walk through the others. -/
theorem not_reachable_of_not_adj {G H : SimpleGraph String} (hG : G.IsAcyclic) (hle : H ≤ G)
    (hadj : G.Adj a b) (hnot : ¬ H.Adj a b) : ¬ H.Reachable a b := by
  have hbridge := SimpleGraph.isAcyclic_iff_forall_adj_isBridge.mp hG hadj
  rw [SimpleGraph.isBridge_iff] at hbridge
  refine fun hreach => hbridge (hreach.mono ?_)
  intro x y hxy
  refine (SimpleGraph.deleteEdges_adj).mpr ⟨hle hxy, fun hmem => hnot ?_⟩
  rw [Set.mem_singleton_iff] at hmem
  rw [← SimpleGraph.mem_edgeSet, ← hmem]
  exact hxy

/-- **CONNECTED PARTS ARE FULL**: a connected part of a tree has every edge of the tree between
    its entities. -/
theorem mem_edges_of_isTree (hg : g.IsTree) (hjoined : h.IsJoined)
    (hin : h.EdgesWithin g) (he : e ∈ g.edges) (hjoins : e.Joins a b) (ha : a ∈ h.names)
    (hb : b ∈ h.names) : e ∈ h.edges := by
  have hadj : h.adjacency.Adj a b := by
    by_contra hnot
    exact not_reachable_of_not_adj hg.acyclic (adjacency_mono hin)
      (adj_iff.mpr ⟨ne_of_joins hg he hjoins, e, he, hjoins⟩) hnot
      (hjoined.joined a ha b hb)
  obtain ⟨-, f, hf, hjoins'⟩ := adj_iff.mp hadj
  have hkey := hg.simple e he f (hin f hf) a b hjoins hjoins'
  exact (SortedSet.mem_congr hkey).mpr hf

/-- **EDGES OUT OF A PART CUT**: where an edge of the tree leads from a connected part to `b`, no
    other part of the tree without the edge's end leads from the first part to `b`. -/
theorem not_reachable_of_isTree (hg : g.IsTree) (hjoined : h.IsJoined)
    (hin : h.EdgesWithin g) (he : e ∈ g.edges) (hjoins : e.Joins a b) (ha : a ∈ h.names)
    (hb : b ∉ h.names) {rest : JoinGraph} (hclosed : rest.IsClosed) (hrest : rest.EdgesWithin g)
    (harest : a ∉ rest.names) {c : String} (hc : c ∈ h.names) :
    ¬ rest.adjacency.Reachable c b := by
  intro hreach
  have hle : h.adjacency ⊔ rest.adjacency ≤ g.adjacency :=
    sup_le (adjacency_mono hin) (adjacency_mono hrest)
  refine not_reachable_of_not_adj hg.acyclic hle
    (adj_iff.mpr ⟨ne_of_joins hg he hjoins, e, he, hjoins⟩) ?_ ?_
  · rintro (hadj | hadj)
    · obtain ⟨-, f, hf, hj⟩ := adj_iff.mp hadj
      exact hb (hjoined.keepsWalks a ha b (mem_neighbors.mpr ⟨f, hf, hj⟩))
    · obtain ⟨-, f, hf, hj⟩ := adj_iff.mp hadj
      exact harest (hclosed.mem_names_of_joins hf hj).1
  · exact ((hjoined.joined a ha c hc).mono le_sup_left).trans (hreach.mono le_sup_right)

/-! ## Trees that grow -/

variable {s t : Entity} {via : Field}

theorem adjacency_withEdge :
    (g.withEdge s t via).adjacency = g.adjacency ⊔ SimpleGraph.edge s.name t.name := by
  ext a b
  rw [SimpleGraph.sup_adj, adj_iff, adj_iff, SimpleGraph.edge_adj]
  constructor
  · rintro ⟨hne, e, he, hjoins⟩
    rcases mem_edges_withEdge.mp he with hkey | he
    · refine .inr ⟨?_, hne⟩
      rcases (Edge.joins_congr hkey).mpr hjoins with ⟨rfl, rfl⟩ | ⟨rfl, rfl⟩
      · exact .inl ⟨rfl, rfl⟩
      · exact .inr ⟨rfl, rfl⟩
    · exact .inl ⟨hne, e, he, hjoins⟩
  · rintro (⟨hne, e, he, hjoins⟩ | ⟨hends, hne⟩)
    · exact ⟨hne, e, mem_edges_withEdge.mpr (.inr he), hjoins⟩
    · refine ⟨hne, ⟨s.name, t.name, via⟩, mem_edges_withEdge.mpr (.inl rfl), ?_⟩
      rcases hends with ⟨rfl, rfl⟩ | ⟨rfl, rfl⟩
      · exact .inl ⟨rfl, rfl⟩
      · exact .inr ⟨rfl, rfl⟩

theorem isTree_single (x : Entity) : (single x).IsTree := by
  refine ⟨isClosed_single x, ?_, ?_, fun e he => absurd he not_mem_edges_single,
    fun e he => absurd he not_mem_edges_single⟩
  · rw [isConnected_iff (isClosed_single x).keepsWalks, names_single]
    intro a ha b hb
    rw [List.mem_singleton.mp ha, List.mem_singleton.mp hb]
  · have hbot : (single x).adjacency = ⊥ := by
      ext a b
      rw [adj_iff, SimpleGraph.bot_adj, iff_false]
      rintro ⟨-, e, he, -⟩
      exact not_mem_edges_single he
    rw [hbot]
    exact SimpleGraph.isAcyclic_bot

/-- The two ends of an edge of which one is old and one is new. -/
def GrowsFrom (g : JoinGraph) (old new : String) (s t : Entity) : Prop :=
  old ∈ g.names ∧ new ∉ g.names ∧ (s.name = old ∧ t.name = new ∨ s.name = new ∧ t.name = old)

theorem GrowsFrom.mem_names (hgrows : g.GrowsFrom a b s t) {n : String} :
    n ∈ (g.withEdge s t via).names ↔ n = b ∨ n ∈ g.names := by
  obtain ⟨hold, -, hends⟩ := hgrows
  rw [mem_names_withEdge]
  rcases hends with ⟨rfl, rfl⟩ | ⟨rfl, rfl⟩
  · grind
  · grind

theorem isConnected_withEdge (hclosed : g.IsClosed) (hg : g.isConnected = true) {old : String}
    (hold : old ∈ g.names) (hends : s.name = old ∨ t.name = old) :
    (g.withEdge s t via).isConnected = true := by
  have hedge : (g.withEdge s t via).adjacency.Reachable s.name t.name := by
    refine reachable_of_mem_neighbors (mem_neighbors.mpr ⟨⟨s.name, t.name, via⟩, ?_, ?_⟩)
    · exact mem_edges_withEdge.mpr (.inl rfl)
    · exact .inl ⟨rfl, rfl⟩
  -- everything is reached from the entity that was there before
  have hall : ∀ a ∈ (g.withEdge s t via).names,
      (g.withEdge s t via).adjacency.Reachable old a := by
    have hboth : (g.withEdge s t via).adjacency.Reachable old s.name
        ∧ (g.withEdge s t via).adjacency.Reachable old t.name := by
      rcases hends with rfl | rfl
      · exact ⟨.rfl, hedge⟩
      · exact ⟨hedge.symm, .rfl⟩
    intro a ha
    rcases mem_names_withEdge.mp ha with rfl | rfl | ha
    · exact hboth.2
    · exact hboth.1
    · rw [adjacency_withEdge]
      exact ((hclosed.isJoined hg).joined old hold a ha).mono le_sup_left
  exact (isConnected_iff hclosed.withEdge.keepsWalks).mpr fun a ha b hb =>
    (hall a ha).symm.trans (hall b hb)

theorem GrowsFrom.ne (hgrows : g.GrowsFrom a b s t) : s.name ≠ t.name := by
  obtain ⟨hold, hnew, ⟨hs, ht⟩ | ⟨hs, ht⟩⟩ := hgrows
  · rw [hs, ht]
    exact fun heq => hnew (heq ▸ hold)
  · rw [hs, ht]
    exact fun heq => hnew (heq ▸ hold)

/-- The new edge has an end that was not there, so nothing led from one end to the other. -/
theorem GrowsFrom.not_reachable (hg : g.KeepsWalks) (hgrows : g.GrowsFrom a b s t) :
    ¬ g.adjacency.Reachable s.name t.name := by
  intro hreach
  obtain ⟨hold, hnew, ⟨hs, ht⟩ | ⟨hs, ht⟩⟩ := hgrows
  · exact hnew (ht ▸ hg.mem_names_of_reachable (hs ▸ hold) hreach)
  · exact hnew (hs ▸ hg.mem_names_of_reachable (ht ▸ hold) hreach.symm)

/-- No edge that was there joins what the new one joins. -/
theorem GrowsFrom.not_joins (hg : g.KeepsWalks) (hgrows : g.GrowsFrom a b s t) {f : Edge}
    (hf : f ∈ g.edges) {x y : String} (he : (⟨s.name, t.name, via⟩ : Edge).Joins x y) :
    ¬ f.Joins x y := by
  intro hjoins
  refine hgrows.not_reachable hg (reachable_of_mem_neighbors (mem_neighbors.mpr ⟨f, hf, ?_⟩))
  rcases he with ⟨rfl, rfl⟩ | ⟨rfl, rfl⟩
  · exact hjoins
  · exact hjoins.symm

/-- A tree stays one when an entity is joined to it. -/
theorem isTree_withEdge (hg : g.IsTree) (hgrows : g.GrowsFrom a b s t) :
    (g.withEdge s t via).IsTree := by
  have hwalks := hg.closed.keepsWalks
  refine ⟨hg.closed.withEdge, ?_, ?_, fun e he => ?_, fun e he f hf x y hx hy => ?_⟩
  · exact isConnected_withEdge hg.closed hg.connected hgrows.1
      (hgrows.2.2.imp (fun hleft => hleft.1) fun hright => hright.2)
  · rw [adjacency_withEdge]
    exact hg.acyclic.sup_edge_of_not_reachable (hgrows.not_reachable hwalks)
  · rcases mem_edges_withEdge.mp he with hkey | he
    · obtain ⟨hsource, hkey⟩ := List.cons.inj hkey
      rw [← hsource, ← (List.cons.inj hkey).1]
      exact hgrows.ne
    · exact hg.loopless e he
  · rcases mem_edges_withEdge.mp he with hkey | he
    · rcases mem_edges_withEdge.mp hf with hkey' | hf
      · rw [← hkey, hkey']
      · exact absurd hy (hgrows.not_joins hwalks hf ((Edge.joins_congr hkey).mpr hx))
    · rcases mem_edges_withEdge.mp hf with hkey' | hf
      · exact absurd hx (hgrows.not_joins hwalks he ((Edge.joins_congr hkey').mpr hy))
      · exact hg.simple e he f hf x y hx hy

end IndexDesign.JoinGraph
