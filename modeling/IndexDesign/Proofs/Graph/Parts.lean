import IndexDesign.Proofs.Graph.Union

/-! # Parts of a graph around an entity

    Splitting a graph at an entity gives the connected components of what is
    left without that entity, each once.

    Growing a set around an entity is growing it without the edges at the
    entity; so the sets that the search finds are closed under walks there, and
    an entity that no earlier set has is in none of them.  That is what the
    list of sets found so far keeps.

    So the parts have every other entity once, whatever edges the graph has.
    Where the graph is closed they are its components without the entity.  In
    other graphs a part can have edges to names that are no entities. -/

namespace IndexDesign.JoinGraph

variable {g part p q : JoinGraph} {a b cut : String}

/-- The part is a connected component of the graph: it has entities, walks within it join them,
    it has every edge between them, and no edge of the graph leads out of it. -/
structure IsComponent (g part : JoinGraph) : Prop where
  nonempty : ∃ a, a ∈ part.names
  connected : part.isConnected = true
  entities : ∀ e ∈ part.entities.toList, e ∈ g.entities.toList
  edges : ∀ e, e ∈ part.edges ↔ e ∈ g.edges ∧ e.source ∈ part.names ∧ e.target ∈ part.names
  closed : ∀ a ∈ part.names, ∀ b ∈ g.neighbors a, b ∈ part.names

/-! ## Components and walks -/

/-- A walk that starts in a part without ways out is one of the part. -/
theorem reachable_of_closed (hedges : ∀ e ∈ g.edges, e.source ∈ part.names →
      e.target ∈ part.names → e ∈ part.edges)
    (hclosed : ∀ a ∈ part.names, ∀ b ∈ g.neighbors a, b ∈ part.names) (ha : a ∈ part.names)
    (h : g.adjacency.Reachable a b) : b ∈ part.names ∧ part.adjacency.Reachable a b := by
  have hkept : ∀ x, x ∈ part.names ∧ part.adjacency.Reachable a x →
      ∀ y ∈ g.neighbors x, y ∈ part.names ∧ part.adjacency.Reachable a y := by
    rintro x ⟨hx, hreach⟩ y hy
    have hmem := hclosed x hx y hy
    obtain ⟨e, he, hjoins⟩ := mem_neighbors.mp hy
    refine ⟨hmem, hreach.trans (reachable_of_mem_neighbors (mem_neighbors.mpr ⟨e, ?_, hjoins⟩))⟩
    rcases hjoins with ⟨rfl, rfl⟩ | ⟨rfl, rfl⟩
    · exact hedges e he hx hmem
    · exact hedges e he hmem hx
  exact of_reachable hkept ⟨ha, .rfl⟩ h

namespace IsComponent

theorem isClosed (h : g.IsComponent part) : part.IsClosed := fun e he =>
  ((h.edges e).mp (SortedSet.mem_of_mem_toList he)).2

/-- A component has what walks reach from any of its entities. -/
theorem mem_names_iff (h : g.IsComponent part) (ha : a ∈ part.names) :
    b ∈ part.names ↔ g.adjacency.Reachable a b := by
  have hwithin : part.EdgesWithin g := fun e he => ((h.edges e).mp he).1
  constructor
  · intro hb
    exact ((h.isClosed.isJoined h.connected).joined a ha b hb).mono (adjacency_mono hwithin)
  · intro hreach
    exact (reachable_of_closed (fun e he hs ht => (h.edges e).mpr ⟨he, hs, ht⟩) h.closed ha
      hreach).1

/-- Components that share an entity have the same entities and edges. -/
theorem beq_of_mem (hp : g.IsComponent p) (hq : g.IsComponent q) (ha : a ∈ p.names)
    (ha' : a ∈ q.names) : (p == q) = true := by
  have hnames : ∀ v, v ∈ p.names ↔ v ∈ q.names := fun v =>
    (hp.mem_names_iff ha).trans (hq.mem_names_iff ha').symm
  refine beq_of_mem_iff hnames fun e => ?_
  rw [hp.edges, hq.edges, hnames, hnames]

end IsComponent

/-! ## Growing around an entity -/

variable {seen : SortedSet String} {drop : List String}

theorem IsClosed.mem_neighbors_without (hg : g.IsClosed) :
    b ∈ (g.without drop).neighbors a ↔ b ∈ g.neighbors a ∧ a ∉ drop ∧ b ∉ drop := by
  rw [mem_neighbors, mem_neighbors]
  constructor
  · rintro ⟨e, he, hjoins⟩
    obtain ⟨he, hsource, htarget⟩ := hg.mem_edges_without.mp he
    refine ⟨⟨e, he, hjoins⟩, ?_⟩
    rcases hjoins with ⟨rfl, rfl⟩ | ⟨rfl, rfl⟩
    · exact ⟨hsource, htarget⟩
    · exact ⟨htarget, hsource⟩
  · rintro ⟨⟨e, he, hjoins⟩, ha, hb⟩
    refine ⟨e, hg.mem_edges_without.mpr ⟨he, ?_⟩, hjoins⟩
    rcases hjoins with ⟨rfl, rfl⟩ | ⟨rfl, rfl⟩
    · exact ⟨ha, hb⟩
    · exact ⟨hb, ha⟩

theorem mem_names_cut : a ∈ (g.without [cut]).names ↔ a ∈ g.names ∧ a ≠ cut := by
  rw [mem_names_without, List.mem_singleton]

/-- The graph without the edges at an entity. -/
def detach (g : JoinGraph) (cut : String) : JoinGraph where
  entities := g.entities
  edges := g.edges.filter (! ·.touches cut)

theorem mem_neighbors_detach :
    b ∈ (g.detach cut).neighbors a ↔ b ∈ g.neighbors a ∧ a ≠ cut ∧ b ≠ cut := by
  have hfree : ∀ e : Edge, (!e.touches cut) = true ↔ e.source ≠ cut ∧ e.target ≠ cut := by
    simp [Edge.touches]
  rw [mem_neighbors, mem_neighbors, ← exists_joins_iff, ← exists_joins_iff]
  constructor
  · rintro ⟨e, he, hjoins⟩
    obtain ⟨he, huntouched⟩ := List.mem_filter.mp he
    obtain ⟨hsource, htarget⟩ := (hfree e).mp huntouched
    refine ⟨⟨e, he, hjoins⟩, ?_⟩
    rcases hjoins with ⟨rfl, rfl⟩ | ⟨rfl, rfl⟩
    · exact ⟨hsource, htarget⟩
    · exact ⟨htarget, hsource⟩
  · rintro ⟨⟨e, he, hjoins⟩, ha, hb⟩
    refine ⟨e, List.mem_filter.mpr ⟨he, (hfree e).mpr ?_⟩, hjoins⟩
    rcases hjoins with ⟨rfl, rfl⟩ | ⟨rfl, rfl⟩
    · exact ⟨ha, hb⟩
    · exact ⟨hb, ha⟩

/-- Without edges at an entity a graph has no more names. -/
theorem length_nodes_detach_le : (g.detach cut).nodes.length ≤ g.nodes.length := by
  refine (List.subperm_of_subset (nodup_nodes _) fun v hv => mem_nodes.mpr ?_).length_le
  refine (mem_nodes.mp hv).imp_right ?_
  rintro ⟨e, he, hends⟩
  exact ⟨e, (List.mem_filter.mp he).1, hends⟩

/-- In a closed graph, leaving out an entity is leaving out its edges. -/
theorem IsClosed.adjacency_detach (hg : g.IsClosed) (cut : String) :
    (g.detach cut).adjacency = (g.without [cut]).adjacency := by
  ext a b
  rw [adj_iff, adj_iff, ← mem_neighbors, ← mem_neighbors, mem_neighbors_detach,
    hg.mem_neighbors_without, List.mem_singleton, List.mem_singleton]

/-- Growing around an entity is growing in the graph without its edges. -/
theorem grow_eq_detach (rounds : Nat) : ∀ seen : SortedSet String, (∀ x ∈ seen, x ≠ cut) →
    g.grow [cut] rounds seen = (g.detach cut).grow [] rounds seen := by
  induction rounds with
  | zero => intro seen _; rfl
  | succ rounds ih =>
      intro seen hseen
      have hround : seen.union
          (SortedSet.ofList ((seen.toList.flatMap g.neighbors).filter (! [cut].contains ·)))
            = (g.detach cut).round seen := by
        refine SortedSet.eq_of_mem_iff_text fun x => ?_
        rw [mem_round, SortedSet.mem_union, SortedSet.mem_ofList_text]
        simp only [List.mem_filter, List.mem_flatMap, SortedSet.mem_toList_text,
          Bool.not_eq_true', List.contains_eq_mem, decide_eq_false_iff_not, List.mem_singleton,
          mem_neighbors_detach]
        refine or_congr_right ⟨?_, ?_⟩
        · rintro ⟨⟨y, hy, hx⟩, hne⟩
          exact ⟨y, hy, hx, hseen y hy, hne⟩
        · rintro ⟨y, hy, hx, -, hne⟩
          exact ⟨⟨y, hy, hx⟩, hne⟩
      rw [grow_succ, ← hround]
      show g.grow [cut] rounds _ = _
      rw [hround]
      refine ih _ fun x hx => ?_
      rcases mem_round.mp hx with hx | ⟨y, -, hx⟩
      · exact hseen x hx
      · exact (mem_neighbors_detach.mp hx).2.2

theorem ne_of_mem_start (hcut : a ≠ cut) : ∀ x ∈ (∅ : SortedSet String).insert a, x ≠ cut := by
  intro x hx
  rcases SortedSet.mem_insert.mp hx with hkey | hx
  · rw [← (List.cons.inj hkey).1]
    exact hcut
  · exact absurd hx SortedSet.not_mem_empty

/-- What is reached around an entity is what walks reach without its edges. -/
theorem mem_reachable_cut_iff (ha : a ∈ g.names) (hcut : a ≠ cut) :
    b ∈ g.reachable [cut] a ↔ (g.detach cut).adjacency.Reachable a b := by
  rw [reachable, grow_eq_detach _ _ (ne_of_mem_start hcut)]
  exact mem_grow_iff (mem_nodes_of_mem_names ha) length_nodes_detach_le

/-- The entity that is walked around is not reached. -/
theorem ne_of_mem_reachable_cut (hcut : a ≠ cut) (h : b ∈ g.reachable [cut] a) : b ≠ cut := by
  rw [reachable, grow_eq_detach _ _ (ne_of_mem_start hcut)] at h
  exact of_mem_grow (fun _ _ _ hy => (mem_neighbors_detach.mp hy).2.2) _ _ (ne_of_mem_start hcut)
    b h

/-! ## The sets that are found -/

variable {c : SortedSet String} {vs : List String}

/-- Each set is what walks around the cut reach from one of the entities. -/
theorem exists_of_mem_components (h : c ∈ g.components cut vs seen) :
    ∃ a ∈ vs, a ≠ cut ∧ a ∉ seen ∧ c = g.reachable [cut] a := by
  induction vs generalizing seen with
  | nil => exact nomatch h
  | cons v vs ih =>
      simp only [components] at h
      split at h
      · obtain ⟨a, ha, hrest⟩ := ih h
        exact ⟨a, List.mem_cons_of_mem _ ha, hrest⟩
      · next hnew =>
        rw [not_or] at hnew
        rcases List.mem_cons.mp h with rfl | h
        · exact ⟨v, List.mem_cons_self, hnew.1, hnew.2, rfl⟩
        · obtain ⟨a, ha, hne, hunseen, hc⟩ := ih h
          exact ⟨a, List.mem_cons_of_mem _ ha, hne,
            fun hmem => hunseen (SortedSet.mem_union.mpr (.inl hmem)), hc⟩

/-- Every entity but the cut is in a set, unless it was seen before. -/
theorem exists_mem_components (hcut : a ≠ cut) :
    ∀ seen, a ∈ vs → a ∈ seen ∨ ∃ c ∈ g.components cut vs seen, a ∈ c := by
  induction vs with
  | nil => intro seen ha; exact nomatch ha
  | cons v vs ih =>
      intro seen ha
      simp only [components]
      split
      · next hold =>
        rcases List.mem_cons.mp ha with rfl | ha
        · exact .inl (hold.resolve_left hcut)
        · exact ih seen ha
      · rcases List.mem_cons.mp ha with rfl | ha
        · exact .inr ⟨_, List.mem_cons_self, mem_reachable_self⟩
        · rcases ih (seen.union (g.reachable [cut] v)) ha with hmem | ⟨c, hc, hmem⟩
          · rcases SortedSet.mem_union.mp hmem with hmem | hmem
            · exact .inl hmem
            · exact .inr ⟨_, List.mem_cons_self, hmem⟩
          · exact .inr ⟨c, List.mem_cons_of_mem _ hc, hmem⟩

/-- Walks around the cut do not leave the set. -/
def IsSettled (g : JoinGraph) (cut : String) (seen : SortedSet String) : Prop :=
  ∀ a ∈ seen, ∀ b, (g.detach cut).adjacency.Reachable a b → b ∈ seen

theorem isSettled_reachable (ha : a ∈ g.names) (hcut : a ≠ cut) :
    g.IsSettled cut (g.reachable [cut] a) := by
  intro b hb c hreach
  rw [mem_reachable_cut_iff ha hcut] at hb ⊢
  exact hb.trans hreach

theorem IsSettled.union {s t : SortedSet String} (hs : g.IsSettled cut s) (ht : g.IsSettled cut t) :
    g.IsSettled cut (s.union t) := by
  intro a ha b hreach
  rcases SortedSet.mem_union.mp ha with ha | ha
  · exact SortedSet.mem_union.mpr (.inl (hs a ha b hreach))
  · exact SortedSet.mem_union.mpr (.inr (ht a ha b hreach))

/-- Sets that are found have nothing that was seen before. -/
theorem not_mem_of_mem_components (hvs : ∀ v ∈ vs, v ∈ g.names)
    (hseen : g.IsSettled cut seen) (hc : c ∈ g.components cut vs seen) (ha : a ∈ c) : a ∉ seen := by
  obtain ⟨v, hv, hcut, hunseen, rfl⟩ := exists_of_mem_components hc
  intro hmem
  exact hunseen (hseen a hmem v ((mem_reachable_cut_iff (hvs v hv) hcut).mp ha).symm)

theorem pairwise_components (hvs : ∀ v ∈ vs, v ∈ g.names) : ∀ seen, g.IsSettled cut seen →
    (g.components cut vs seen).Pairwise fun c d => ∀ a ∈ c, a ∉ d := by
  induction vs with
  | nil => intro seen _; exact .nil
  | cons v vs ih =>
      intro seen hseen
      have hrest : ∀ w ∈ vs, w ∈ g.names := fun w hw => hvs w (List.mem_cons_of_mem _ hw)
      simp only [components]
      split
      · exact ih hrest seen hseen
      · next hnew =>
        rw [not_or] at hnew
        have hsettled := hseen.union (isSettled_reachable (hvs v List.mem_cons_self) hnew.1)
        refine List.pairwise_cons.mpr ⟨fun d hd a ha had => ?_, ih hrest _ hsettled⟩
        exact not_mem_of_mem_components hrest hsettled hd had (SortedSet.mem_union.mpr (.inr ha))

/-! ## Splitting -/

/-- A part of the split without the cut is the subgraph on a set that is found. -/
theorem exists_of_mem_split (h : part ∈ g.split cut false) :
    ∃ a ∈ g.names, a ≠ cut ∧ part = g.subgraph (g.reachable [cut] a).toList := by
  obtain ⟨c, hc, rfl⟩ := List.mem_map.mp h
  obtain ⟨a, ha, hcut, -, rfl⟩ := exists_of_mem_components hc
  exact ⟨a, ha, hcut, by rw [Bool.false_and, if_neg Bool.false_ne_true, List.append_nil]⟩

/-- The entities of a part are others than the cut. -/
theorem mem_names_of_mem_split (h : part ∈ g.split cut false) (ha : a ∈ part.names) :
    a ∈ g.names ∧ a ≠ cut := by
  obtain ⟨v, -, hcut, rfl⟩ := exists_of_mem_split h
  rw [mem_names_subgraph, SortedSet.mem_toList_text] at ha
  exact ⟨ha.1, ne_of_mem_reachable_cut hcut ha.2⟩

theorem mem_names_subgraph_reachable (hg : g.IsClosed) (ha : a ∈ g.names) (hcut : a ≠ cut) :
    b ∈ (g.subgraph (g.reachable [cut] a).toList).names
      ↔ (g.without [cut]).adjacency.Reachable a b := by
  rw [mem_names_subgraph, SortedSet.mem_toList_text, mem_reachable_cut_iff ha hcut,
    hg.adjacency_detach]
  refine and_iff_right_of_imp fun hreach => ?_
  exact (mem_names_cut.mp ((isClosed_without g _).keepsWalks.mem_names_of_reachable
    (mem_names_cut.mpr ⟨ha, hcut⟩) hreach)).1

/-- **PARTS ARE COMPONENTS**: each part of a split is a connected component of the graph without
    the cut. -/
theorem isComponent_of_mem_split (hg : g.IsClosed) (h : part ∈ g.split cut false) :
    (g.without [cut]).IsComponent part := by
  obtain ⟨a, ha, hcut, hpart⟩ := exists_of_mem_split h
  have hnames : ∀ b, b ∈ part.names ↔ (g.without [cut]).adjacency.Reachable a b := by
    intro b
    rw [hpart]
    exact mem_names_subgraph_reachable hg ha hcut
  have hleft : ∀ b ∈ part.names, b ∈ (g.without [cut]).names := fun b hb =>
    (isClosed_without g _).keepsWalks.mem_names_of_reachable (mem_names_cut.mpr ⟨ha, hcut⟩)
      ((hnames b).mp hb)
  have hclosedPart : part.IsClosed := hpart ▸ hg.subgraph _
  have hedges : ∀ e, e ∈ part.edges ↔
      e ∈ (g.without [cut]).edges ∧ e.source ∈ part.names ∧ e.target ∈ part.names := by
    intro e
    constructor
    · intro he
      obtain ⟨hs, ht⟩ := hclosedPart.mem_names_of_joins he (.inl ⟨rfl, rfl⟩)
      rw [hpart, mem_edges_subgraph] at he
      exact ⟨hg.mem_edges_without.mpr ⟨he.1, (mem_names_without.mp (hleft _ hs)).2,
        (mem_names_without.mp (hleft _ ht)).2⟩, hs, ht⟩
    · rintro ⟨he, hs, ht⟩
      rw [hpart] at hs ht ⊢
      exact mem_edges_subgraph.mpr ⟨(hg.mem_edges_without.mp he).1, (mem_names_subgraph.mp hs).2,
        (mem_names_subgraph.mp ht).2⟩
  have hclosed : ∀ b ∈ part.names, ∀ d ∈ (g.without [cut]).neighbors b, d ∈ part.names := by
    intro b hb d hd
    exact (hnames d).mpr (((hnames b).mp hb).trans (reachable_of_mem_neighbors hd))
  refine ⟨⟨a, (hnames a).mpr .rfl⟩,
    (isConnected_iff hclosedPart.keepsWalks).mpr fun b hb d hd => ?_,
    fun e he => ?_, hedges, hclosed⟩
  · refine (reachable_of_closed (fun e he hs ht => (hedges e).mpr ⟨he, hs, ht⟩) hclosed hb ?_).2
    exact ((hnames b).mp hb).symm.trans ((hnames d).mp hd)
  · have hmem := mem_names_cut.mp (hleft e.name (List.mem_map_of_mem he))
    rw [hpart] at he
    refine List.mem_filter.mpr ⟨(List.mem_filter.mp he).1, ?_⟩
    rw [List.contains_iff_mem, List.mem_filter]
    exact ⟨hmem.1, by simpa using hmem.2⟩

/-- **EVERY ENTITY IS ON A PART**, but for the cut. -/
theorem exists_mem_split (ha : a ∈ g.names) (hcut : a ≠ cut) :
    ∃ part ∈ g.split cut false, a ∈ part.names := by
  rcases exists_mem_components hcut ∅ ha with hmem | ⟨c, hc, hmem⟩
  · exact absurd hmem SortedSet.not_mem_empty
  · refine ⟨_, List.mem_map_of_mem hc, ?_⟩
    rw [mem_names_subgraph]
    exact ⟨ha, List.mem_append_left _ (SortedSet.mem_toList_text.mpr hmem)⟩

/-- **PARTS SHARE NO ENTITY**. -/
theorem pairwise_split (g : JoinGraph) (cut : String) :
    (g.split cut false).Pairwise fun p q => ∀ a ∈ p.names, a ∉ q.names := by
  have hempty : g.IsSettled cut ∅ := fun a ha => absurd ha SortedSet.not_mem_empty
  refine List.pairwise_map.mpr ((pairwise_components (fun v hv => hv) ∅ hempty).imp ?_)
  intro c d hdisjoint a ha ha'
  rw [Bool.false_and, if_neg Bool.false_ne_true, List.append_nil, mem_names_subgraph,
    SortedSet.mem_toList_text] at ha ha'
  exact hdisjoint a ha.2 ha'.2

/-- Every connected component of what is left is a part of the split. -/
theorem exists_beq_of_isComponent (hg : g.IsClosed) (h : (g.without [cut]).IsComponent part) :
    ∃ p ∈ g.split cut false, (p == part) = true := by
  obtain ⟨a, ha⟩ := h.nonempty
  obtain ⟨e, he, rfl⟩ := List.mem_map.mp ha
  obtain ⟨hmem, hcut⟩ := mem_names_cut.mp (List.mem_map_of_mem (h.entities e he))
  obtain ⟨p, hp, hap⟩ := exists_mem_split hmem hcut
  exact ⟨p, hp, (isComponent_of_mem_split hg hp).beq_of_mem h hap ha⟩

end IndexDesign.JoinGraph
