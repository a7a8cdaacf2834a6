import IndexDesign.Graph.Traversal
import IndexDesign.Proofs.SortedSet

/-! # Connected join graphs

    Join graphs are read as simple graphs on all names: two entities are
    adjacent where an edge joins them, in either direction, and a name that no
    edge has stands alone.  So Mathlib's reachability and acyclicity apply to
    them, and graphs on different entities can be compared.

    The check for connectedness grows a set by rounds.  A round that adds
    nothing closes the set, every other round makes it larger, and it has only
    entities and ends of edges; so as many rounds as there are such names are
    enough.

    The check counts what it reaches.  That is a check of the entities where
    walks from entities meet entities only, as they do where every edge joins
    two entities of the graph.  An edge that ends elsewhere adds to the count. -/

namespace IndexDesign

namespace Edge

variable {e : Edge} {a b : String}

/-- The edge joins the two entities, in either direction. -/
def Joins (e : Edge) (a b : String) : Prop :=
  e.source = a ∧ e.target = b ∨ e.source = b ∧ e.target = a

theorem Joins.symm (h : e.Joins a b) : e.Joins b a := Or.symm h

theorem joins_congr {f : Edge} (h : key e = key f) : e.Joins a b ↔ f.Joins a b := by
  obtain ⟨hsource, h⟩ := List.cons.inj h
  obtain ⟨htarget, -⟩ := List.cons.inj h
  rw [Joins, Joins, hsource, htarget]

theorem joins_iff_other : e.Joins a b ↔ e.other a = some b := by
  simp only [Joins, other]
  by_cases hsource : e.source = a
  · rw [if_pos hsource, Option.some.injEq]
    constructor
    · rintro (⟨-, ht⟩ | ⟨hs, ht⟩)
      · exact ht
      · rw [ht, ← hsource, hs]
    · intro ht
      exact .inl ⟨hsource, ht⟩
  · rw [if_neg hsource]
    by_cases htarget : e.target = a
    · simp [hsource, htarget]
    · simp [hsource, htarget]

end Edge

namespace JoinGraph

variable {g : JoinGraph} {a b : String}

/-- The simple graph on all names whose edges are the joins of two entities. -/
def adjacency (g : JoinGraph) : SimpleGraph String :=
  SimpleGraph.fromRel fun a b => ∃ e ∈ g.edges, e.Joins a b

theorem adj_iff : g.adjacency.Adj a b ↔ a ≠ b ∧ ∃ e ∈ g.edges, e.Joins a b := by
  rw [adjacency, SimpleGraph.fromRel_adj]
  refine and_congr_right fun _ => ⟨?_, Or.inl⟩
  rintro (h | ⟨e, he, hjoins⟩)
  · exact h
  · exact ⟨e, he, hjoins.symm⟩

theorem exists_joins_iff :
    (∃ e ∈ g.edges.toList, e.Joins a b) ↔ ∃ e ∈ g.edges, e.Joins a b := by
  constructor
  · rintro ⟨e, he, hjoins⟩
    exact ⟨e, SortedSet.mem_of_mem_toList he, hjoins⟩
  · rintro ⟨e, he, hjoins⟩
    obtain ⟨f, hf, hkey⟩ := SortedSet.mem_iff.mp he
    exact ⟨f, hf, (Edge.joins_congr hkey).mpr hjoins⟩

@[simp] theorem mem_neighbors : b ∈ g.neighbors a ↔ ∃ e ∈ g.edges, e.Joins a b := by
  simp only [neighbors, SortedSet.mem_toList_text, SortedSet.mem_ofList_text, List.mem_filterMap,
    ← Edge.joins_iff_other, exists_joins_iff]

theorem mem_neighbors_comm : b ∈ g.neighbors a ↔ a ∈ g.neighbors b := by
  rw [mem_neighbors, mem_neighbors]
  exact exists_congr fun e => and_congr_right fun _ => ⟨Edge.Joins.symm, Edge.Joins.symm⟩

/-- What is closed under neighbours has everything that is reachable from it. -/
theorem of_reachable {holds : String → Prop} (hclosed : ∀ x, holds x → ∀ y ∈ g.neighbors x, holds y)
    (ha : holds a) (h : g.adjacency.Reachable a b) : holds b := by
  rw [SimpleGraph.reachable_iff_reflTransGen] at h
  induction h with
  | refl => exact ha
  | tail _ hadj ih => exact hclosed _ ih _ (mem_neighbors.mpr (adj_iff.mp hadj).2)

theorem reachable_of_mem_neighbors (h : b ∈ g.neighbors a) : g.adjacency.Reachable a b := by
  by_cases hab : a = b
  · rw [hab]
  · exact (adj_iff.mpr ⟨hab, mem_neighbors.mp h⟩).reachable

/-! ## Edges between entities -/

/-- Every edge joins two entities of the graph. -/
def IsClosed (g : JoinGraph) : Prop :=
  ∀ e ∈ g.edges.toList, e.source ∈ g.names ∧ e.target ∈ g.names

/-- Walks from entities meet entities only: no edge leads from an entity of the graph to a name
    that is none. -/
def KeepsWalks (g : JoinGraph) : Prop := ∀ a ∈ g.names, ∀ b ∈ g.neighbors a, b ∈ g.names

instance (g : JoinGraph) : Decidable g.IsClosed :=
  inferInstanceAs (Decidable (∀ e ∈ g.edges.toList, e.source ∈ g.names ∧ e.target ∈ g.names))

instance (g : JoinGraph) : Decidable g.KeepsWalks :=
  inferInstanceAs (Decidable (∀ a ∈ g.names, ∀ b ∈ g.neighbors a, b ∈ g.names))

/-- In a closed graph joined names are entities. -/
theorem IsClosed.mem_names_of_joins (hg : g.IsClosed) {e : Edge} (he : e ∈ g.edges)
    (h : e.Joins a b) : a ∈ g.names ∧ b ∈ g.names := by
  obtain ⟨f, hf, hjoins⟩ := exists_joins_iff.mpr ⟨e, he, h⟩
  obtain ⟨hsource, htarget⟩ := hg f hf
  rcases hjoins with ⟨rfl, rfl⟩ | ⟨rfl, rfl⟩
  · exact ⟨hsource, htarget⟩
  · exact ⟨htarget, hsource⟩

theorem IsClosed.keepsWalks (hg : g.IsClosed) : g.KeepsWalks := by
  intro a _ b hb
  obtain ⟨e, he, hjoins⟩ := mem_neighbors.mp hb
  exact (hg.mem_names_of_joins he hjoins).2

theorem KeepsWalks.mem_names_of_reachable (hg : g.KeepsWalks) (ha : a ∈ g.names)
    (h : g.adjacency.Reachable a b) : b ∈ g.names :=
  of_reachable hg ha h

/-! ## Names -/

theorem nodup_names (g : JoinGraph) : g.names.Nodup := by
  refine List.pairwise_map.mpr (g.entities.increasing.imp ?_)
  intro e f hlt heq
  have hkey : key e = key f := by rw [show key e = [e.name] from rfl, heq]; rfl
  rw [hkey] at hlt
  exact List.lt_irrefl _ hlt

theorem singleton_lt_singleton : [a] < [b] ↔ a < b := by
  rw [List.cons_lt_cons_iff, or_iff_left fun h => List.not_lt_nil _ h.2]

/-- The entities are listed by name. -/
theorem pairwise_names (g : JoinGraph) : g.names.Pairwise (· < ·) :=
  List.pairwise_map.mpr (g.entities.increasing.imp fun hlt => singleton_lt_singleton.mp hlt)

theorem length_names (g : JoinGraph) : g.names.length = g.size := List.length_map ..

theorem mem_nodes : a ∈ g.nodes
    ↔ a ∈ g.names ∨ ∃ e ∈ g.edges.toList, a = e.source ∨ a = e.target := by
  simp only [nodes, SortedSet.mem_toList_text, SortedSet.mem_ofList_text, List.mem_append,
    List.mem_flatMap, List.mem_cons, List.not_mem_nil, or_false]

theorem mem_nodes_of_mem_names (ha : a ∈ g.names) : a ∈ g.nodes := mem_nodes.mpr (.inl ha)

theorem mem_nodes_of_neighbors (h : b ∈ g.neighbors a) : b ∈ g.nodes := by
  obtain ⟨e, he, hjoins⟩ := exists_joins_iff.mpr (mem_neighbors.mp h)
  refine mem_nodes.mpr (.inr ⟨e, he, ?_⟩)
  rcases hjoins with ⟨-, rfl⟩ | ⟨rfl, -⟩
  · exact .inr rfl
  · exact .inl rfl

theorem nodup_nodes (g : JoinGraph) : g.nodes.Nodup := SortedSet.nodup_toList _

theorem isEmpty_eq_false_iff : g.isEmpty = false ↔ g.names ≠ [] := by
  rw [← Bool.not_eq_true, isEmpty, SortedSet.isEmpty, List.isEmpty_iff]
  exact List.map_eq_nil_iff.not.symm

theorem contains_iff : g.contains a = true ↔ a ∈ g.names := List.contains_iff_mem

theorem entity?_eq_some_of_mem {e : Entity} (he : e ∈ g.entities.toList) :
    g.entity? e.name = some e :=
  SortedSet.find?_key he

theorem mem_of_entity?_eq_some {e : Entity} {name : String} (h : g.entity? name = some e) :
    e ∈ g.entities.toList ∧ e.name = name := by
  obtain ⟨hmem, hkey⟩ := SortedSet.of_find? h
  exact ⟨hmem, (List.cons.inj hkey).1⟩

/-! ## Growing sets -/

variable {seen : SortedSet String}

/-- The set after one more round. -/
def round (g : JoinGraph) (seen : SortedSet String) : SortedSet String :=
  seen.union (SortedSet.ofList ((seen.toList.flatMap g.neighbors).filter (! [].contains ·)))

theorem mem_round : a ∈ g.round seen ↔ a ∈ seen ∨ ∃ x ∈ seen, a ∈ g.neighbors x := by
  simp only [round, SortedSet.mem_union, SortedSet.mem_ofList_text, List.contains_nil,
    Bool.not_false, List.filter_true, List.mem_flatMap, SortedSet.mem_toList_text]

theorem grow_succ (rounds : Nat) (seen : SortedSet String) :
    g.grow [] (rounds + 1) seen = g.grow [] rounds (g.round seen) := rfl

theorem mem_grow {excluded : List String} (rounds : Nat) : ∀ seen : SortedSet String, a ∈ seen →
    a ∈ g.grow excluded rounds seen := by
  induction rounds with
  | zero => intro seen h; exact h
  | succ rounds ih =>
      intro seen h
      exact ih _ (SortedSet.mem_union.mpr (.inl h))

theorem mem_reachable_self {excluded : List String} : a ∈ g.reachable excluded a :=
  mem_grow _ _ (SortedSet.mem_insert.mpr (.inl rfl))

/-- Growing keeps what neighbours keep. -/
theorem of_mem_grow {holds : String → Prop}
    (hclosed : ∀ x, holds x → ∀ y ∈ g.neighbors x, holds y) (rounds : Nat) :
    ∀ seen : SortedSet String, (∀ x ∈ seen, holds x) → ∀ x ∈ g.grow [] rounds seen, holds x := by
  induction rounds with
  | zero => intro seen h; exact h
  | succ rounds ih =>
      intro seen h
      refine ih _ fun x hx => ?_
      rcases mem_round.mp hx with hx | ⟨y, hy, hx⟩
      · exact h x hx
      · exact hclosed y (h y hy) x hx

theorem size_le_of_forall_mem {names : List String} (h : ∀ x ∈ seen, x ∈ names) :
    seen.size ≤ names.length := by
  refine (List.subperm_of_subset (SortedSet.nodup_toList seen) ?_).length_le
  intro x hx
  exact h x (SortedSet.mem_of_mem_toList hx)

/-- Enough rounds close the set. -/
theorem closed_grow (rounds : Nat) : ∀ seen : SortedSet String, (∀ x ∈ seen, x ∈ g.nodes) →
    g.nodes.length < rounds + seen.size →
    ∀ x ∈ g.grow [] rounds seen, ∀ y ∈ g.neighbors x, y ∈ g.grow [] rounds seen := by
  induction rounds with
  | zero =>
      intro seen hnodes hsize
      have hle := size_le_of_forall_mem hnodes
      omega
  | succ rounds ih =>
      intro seen hnodes hsize
      rw [grow_succ]
      by_cases hclosed : ∀ x ∈ seen, ∀ y ∈ g.neighbors x, y ∈ seen
      -- nothing is added any more, in this round or later
      · have hround : ∀ x ∈ g.round seen, x ∈ seen := by
          intro x hx
          rcases mem_round.mp hx with hx | ⟨y, hy, hx⟩
          · exact hx
          · exact hclosed y hy x hx
        intro x hx y hy
        have hseen := of_mem_grow hclosed rounds _ hround x hx
        exact mem_grow _ _ (mem_round.mpr (.inl (hclosed x hseen y hy)))
      · push Not at hclosed
        obtain ⟨x, hx, y, hy, hnew⟩ := hclosed
        have hlt : seen.size < (g.round seen).size :=
          SortedSet.size_lt_of_subset (fun z hz => mem_round.mpr (.inl hz))
            (mem_round.mpr (.inr ⟨x, hx, hy⟩)) hnew
        refine ih _ (fun z hz => ?_) (by omega)
        rcases mem_round.mp hz with hz | ⟨w, -, hz⟩
        · exact hnodes z hz
        · exact mem_nodes_of_neighbors hz

/-- As many rounds as there are names reach what walks reach. -/
theorem mem_grow_iff {rounds : Nat} (ha : a ∈ g.nodes) (hrounds : g.nodes.length ≤ rounds) :
    b ∈ g.grow [] rounds ((∅ : SortedSet String).insert a) ↔ g.adjacency.Reachable a b := by
  have hstart : ∀ x ∈ (∅ : SortedSet String).insert a, x = a := by
    intro x hx
    rcases SortedSet.mem_insert.mp hx with hkey | hx
    · exact (List.cons.inj hkey).1.symm
    · exact absurd hx SortedSet.not_mem_empty
  constructor
  · refine of_mem_grow (fun x hx y hy => hx.trans (reachable_of_mem_neighbors hy)) _ _ ?_ b
    intro x hx
    rw [hstart x hx]
  · refine of_reachable (closed_grow _ _ ?_ ?_)
      (mem_grow _ _ (SortedSet.mem_insert.mpr (.inl rfl)))
    · intro x hx
      rw [hstart x hx]
      exact ha
    · exact Nat.lt_succ_of_le hrounds

/-- **REACHABILITY IS COMPUTED**: without excluded entities the set reached from an entity is what
    walks reach from it. -/
theorem mem_reachable_iff (ha : a ∈ g.names) :
    b ∈ g.reachable [] a ↔ g.adjacency.Reachable a b :=
  mem_grow_iff (mem_nodes_of_mem_names ha) le_rfl

/-! ## Connectedness -/

/-- **CONNECTEDNESS IS COMPUTED**: where walks from entities meet entities only, the check holds
    exactly where every two entities are joined by a walk. -/
theorem isConnected_iff (hg : g.KeepsWalks) :
    g.isConnected = true ↔ ∀ a ∈ g.names, ∀ b ∈ g.names, g.adjacency.Reachable a b := by
  simp only [isConnected]
  split
  · next hnil => simp [hnil]
  · next start rest hnames =>
    have hstart : start ∈ g.names := by rw [hnames]; exact List.mem_cons_self
    have hsub : (g.reachable [] start).toList ⊆ g.names := by
      intro x hx
      exact hg.mem_names_of_reachable hstart
        ((mem_reachable_iff hstart).mp (SortedSet.mem_of_mem_toList hx))
    have hsubperm := List.subperm_of_subset (SortedSet.nodup_toList _) hsub
    rw [beq_iff_eq, ← length_names]
    constructor
    · intro hsize
      -- a part of the names of the same length has them all
      have hperm := hsubperm.perm_of_length_le hsize.ge
      have hreach : ∀ x ∈ g.names, g.adjacency.Reachable start x := by
        intro x hx
        exact (mem_reachable_iff hstart).mp
          (SortedSet.mem_of_mem_toList (hperm.mem_iff.mpr hx))
      intro a ha b hb
      exact (hreach a ha).symm.trans (hreach b hb)
    · intro hall
      refine le_antisymm hsubperm.length_le ?_
      refine (List.subperm_of_subset (nodup_names g) fun x hx => ?_).length_le
      exact SortedSet.mem_toList_text.mpr ((mem_reachable_iff hstart).mpr (hall start hstart x hx))

/-- Every two entities are joined by a walk, and these walks meet as many names as there are
    entities. -/
structure IsJoined (g : JoinGraph) : Prop where
  connected : g.isConnected = true
  joined : ∀ a ∈ g.names, ∀ b ∈ g.names, g.adjacency.Reachable a b

/-- A closed graph that passes the check is joined. -/
theorem IsClosed.isJoined (hg : g.IsClosed) (h : g.isConnected = true) : g.IsJoined :=
  ⟨h, (isConnected_iff hg.keepsWalks).mp h⟩

/-- In a joined graph the entities alone make up the count, so no edge leads out of it. -/
theorem IsJoined.keepsWalks (hg : g.IsJoined) : g.KeepsWalks := by
  intro a ha b hb
  obtain ⟨start, rest, hnames⟩ := List.exists_cons_of_ne_nil (List.ne_nil_of_mem ha)
  have hstart : start ∈ g.names := by rw [hnames]; exact List.mem_cons_self
  have hsize : (g.reachable [] start).size = g.names.length := by
    have hconnected := hg.connected
    simp only [isConnected, hnames, beq_iff_eq] at hconnected
    rw [hconnected, length_names]
  have hsub : g.names ⊆ (g.reachable [] start).toList := fun x hx =>
    SortedSet.mem_toList_text.mpr ((mem_reachable_iff hstart).mpr (hg.joined start hstart x hx))
  have hperm := (List.subperm_of_subset (nodup_names g) hsub).perm_of_length_le hsize.le
  refine hperm.mem_iff.mpr (SortedSet.mem_toList_text.mpr ((mem_reachable_iff hstart).mpr ?_))
  exact (hg.joined start hstart a ha).trans (reachable_of_mem_neighbors hb)

end JoinGraph

end IndexDesign
