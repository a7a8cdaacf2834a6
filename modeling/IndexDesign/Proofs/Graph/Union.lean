import IndexDesign.Proofs.Graph.Tree

/-! # Unions of join graphs

    Graphs are compared by their listings of names and edges.  A set has one
    listing, so graphs with the same entities and edges compare as equal; the
    union of several graphs has exactly what one of them has.  It is connected
    where two connected graphs share an entity. -/

namespace IndexDesign

namespace JoinGraph

variable {g h : JoinGraph} {v : String} {e : Edge}

theorem mem_names_iff {x : Entity} : x ∈ g.entities ↔ x.name ∈ g.names := by
  rw [SortedSet.mem_iff, names, entityNames, List.mem_map]
  refine exists_congr fun y => and_congr_right fun _ => ?_
  exact ⟨fun hkey => (List.cons.inj hkey).1, fun hname => by
    show [y.name] = [x.name]
    rw [hname]⟩

theorem names_eq_of_mem_iff (hnames : ∀ v, v ∈ g.names ↔ v ∈ h.names) : g.names = h.names := by
  have hkeys : g.entities.keys = h.entities.keys :=
    SortedSet.keys_eq_of_mem_iff fun x => by rw [mem_names_iff, mem_names_iff, hnames]
  have hlist : ∀ k : JoinGraph, k.entities.keys = k.names.map fun name => [name] := by
    intro k
    rw [names, entityNames, List.map_map]
    rfl
  rw [hlist, hlist] at hkeys
  exact List.map_injective_iff.mpr (fun a b hab => (List.cons.inj hab).1) hkeys

/-- **GRAPHS ARE COMPARED BY THEIR MEMBERS**. -/
theorem beq_of_mem_iff (hnames : ∀ v, v ∈ g.names ↔ v ∈ h.names)
    (hedges : ∀ e, e ∈ g.edges ↔ e ∈ h.edges) : (g == h) = true := by
  show (g.names == h.names && g.edges.keys == h.edges.keys) = true
  rw [names_eq_of_mem_iff hnames, SortedSet.keys_eq_of_mem_iff hedges, beq_self_eq_true,
    beq_self_eq_true]
  rfl

theorem names_eq_of_beq (hbeq : (g == h) = true) : g.names = h.names := by
  have hboth : (g.names == h.names && g.edges == h.edges) = true := hbeq
  exact eq_of_beq (Bool.and_eq_true_iff.mp hboth).1

/-- The union of the graphs. -/
def unionAll (graphs : List JoinGraph) : JoinGraph := graphs.foldl union ∅

theorem mem_names_union : v ∈ (g.union h).names ↔ v ∈ g.names ∨ v ∈ h.names := by
  show v ∈ entityNames (h.entities.toList.foldl SortedSet.put g.entities) ↔ _
  rw [mem_entityNames_foldl_put, or_comm]
  rfl

/-- An entity of a union is one of the two graphs'. -/
theorem mem_entities_union {x : Entity} (hx : x ∈ (g.union h).entities.toList) :
    x ∈ g.entities.toList ∨ x ∈ h.entities.toList := by
  have hfold : ∀ (xs : List Entity) (entities : SortedSet Entity),
      x ∈ (xs.foldl SortedSet.put entities).toList → x ∈ entities.toList ∨ x ∈ xs := by
    intro xs
    induction xs with
    | nil => intro entities hx; exact .inl hx
    | cons y xs ih =>
        intro entities hx
        rcases ih _ hx with hx | hx
        · rcases SortedSet.mem_place hx with rfl | hx
          · exact .inr List.mem_cons_self
          · exact .inl hx
        · exact .inr (List.mem_cons_of_mem _ hx)
  exact hfold _ _ hx

theorem mem_edges_union : e ∈ (g.union h).edges ↔ e ∈ g.edges ∨ e ∈ h.edges :=
  SortedSet.mem_union

/-- The union of closed graphs is closed. -/
theorem IsClosed.union (hg : g.IsClosed) (hh : h.IsClosed) : (g.union h).IsClosed := by
  intro e he
  rcases SortedSet.mem_toList_extend he with he | he
  · exact ⟨mem_names_union.mpr (.inl (hg e he).1), mem_names_union.mpr (.inl (hg e he).2)⟩
  · exact ⟨mem_names_union.mpr (.inr (hh e he).1), mem_names_union.mpr (.inr (hh e he).2)⟩

/-- A union contains its first graph. -/
theorem containsGraph_union (g h : JoinGraph) : (g.union h).containsGraph g = true := by
  rw [containsGraph, Bool.and_eq_true, List.all_eq_true, SortedSet.isSubset_iff]
  exact ⟨fun v hv => contains_iff.mpr (mem_names_union.mpr (.inl hv)),
    fun e he => mem_edges_union.mpr (.inl he)⟩

/-- Connected graphs that share an entity have a connected union. -/
theorem isConnected_union (hg : g.IsClosed) (hh : h.IsClosed) (hgc : g.isConnected = true)
    (hhc : h.isConnected = true) (hv : v ∈ g.names) (hv' : v ∈ h.names) :
    (g.union h).isConnected = true := by
  have hleft : g.EdgesWithin (g.union h) := fun e he => mem_edges_union.mpr (.inl he)
  have hright : h.EdgesWithin (g.union h) := fun e he => mem_edges_union.mpr (.inr he)
  -- everything is reached from the shared entity
  have hall : ∀ a ∈ (g.union h).names, (g.union h).adjacency.Reachable v a := by
    intro a ha
    rcases mem_names_union.mp ha with ha | ha
    · exact ((hg.isJoined hgc).joined v hv a ha).mono (adjacency_mono hleft)
    · exact ((hh.isJoined hhc).joined v hv' a ha).mono (adjacency_mono hright)
  exact (isConnected_iff (hg.union hh).keepsWalks).mpr fun a ha b hb =>
    (hall a ha).symm.trans (hall b hb)

theorem mem_foldl_union (graphs : List JoinGraph) : ∀ start : JoinGraph,
    (∀ v, v ∈ (graphs.foldl union start).names
      ↔ v ∈ start.names ∨ ∃ g ∈ graphs, v ∈ g.names)
    ∧ ∀ e, e ∈ (graphs.foldl union start).edges
      ↔ e ∈ start.edges ∨ ∃ g ∈ graphs, e ∈ g.edges := by
  induction graphs with
  | nil => intro start; simp
  | cons g graphs ih =>
      intro start
      obtain ⟨hnames, hedges⟩ := ih (start.union g)
      refine ⟨fun v => ?_, fun e => ?_⟩
      · rw [List.foldl_cons, hnames, mem_names_union]
        simp only [List.mem_cons, exists_eq_or_imp, or_assoc]
      · rw [List.foldl_cons, hedges, mem_edges_union]
        simp only [List.mem_cons, exists_eq_or_imp, or_assoc]

theorem mem_names_unionAll {graphs : List JoinGraph} :
    v ∈ (unionAll graphs).names ↔ ∃ g ∈ graphs, v ∈ g.names := by
  rw [unionAll, (mem_foldl_union graphs ∅).1]
  exact or_iff_right fun hnone => nomatch hnone

theorem mem_edges_unionAll {graphs : List JoinGraph} :
    e ∈ (unionAll graphs).edges ↔ ∃ g ∈ graphs, e ∈ g.edges := by
  rw [unionAll, (mem_foldl_union graphs ∅).2]
  exact or_iff_right SortedSet.not_mem_empty

end JoinGraph

end IndexDesign
