import IndexDesign.Proofs.Graph.JoinOrder
import IndexDesign.Proofs.Graph.Tree

/-! # Where a join order starts

    A graph of several entities is visited from a leaf, an entity with at most
    one neighbour.  A cycle has none, so it has no join order; a tree always
    has one. -/

namespace IndexDesign.JoinGraph

variable {g : JoinGraph} {eq : FieldSet} {v : String}

/-- The graph has an entity at which a join order can start: its only one, or a leaf. -/
def HasStart (g : JoinGraph) : Prop := g.size ≤ 1 ∨ g.leaves ≠ []

instance (g : JoinGraph) : Decidable g.HasStart :=
  inferInstanceAs (Decidable (g.size ≤ 1 ∨ g.leaves ≠ []))

theorem fewestRows_eq_none_iff {names : List String} : g.fewestRows names = none ↔ names = [] := by
  cases names with
  | nil => exact iff_of_true rfl rfl
  | cons name rest => exact iff_of_false (Option.some_ne_none _) (List.cons_ne_nil name rest)

theorem startLeaf_eq_none_iff : g.startLeaf eq = none ↔ g.leaves = [] := by
  simp only [startLeaf, Option.or_eq_none_iff, fewestRows_eq_none_iff]
  refine ⟨fun h => h.2, fun h => ⟨?_, h⟩⟩
  rw [h]
  rfl

/-- A walk has visited the entity at which it starts. -/
theorem walk_start_ne_nil (g : JoinGraph) (start : String) :
    g.walk g.walkLength [start] [] ≠ [] := by
  have hgrows : ∀ pops stack order, order ≠ [] → g.walk pops stack order ≠ [] := by
    intro pops
    induction pops with
    | zero => intro stack order h; exact h
    | succ pops ih =>
        intro stack order h
        cases stack with
        | nil => exact h
        | cons w stack =>
            by_cases hmem : w ∈ order
            · rw [walk_visited hmem]
              exact ih stack order h
            · rw [walk_new hmem]
              exact ih _ _ (List.append_ne_nil_of_left_ne_nil h _)
  rw [walkLength, Nat.add_comm, walk_new List.not_mem_nil]
  exact hgrows _ _ _ (List.cons_ne_nil start [])

/-- **JOIN ORDERS START**: a graph with entities has a join order where it has an entity to start
    at. -/
theorem joinOrder_ne_nil_iff (hne : g.names ≠ []) : g.joinOrder eq ≠ [] ↔ g.HasStart := by
  simp only [joinOrder, HasStart]
  by_cases hsize : g.size ≤ 1
  · rw [if_pos hsize]
    exact ⟨fun _ => .inl hsize, fun _ => hne⟩
  · rw [if_neg hsize]
    have hleaves : g.leaves ≠ [] ↔ g.startLeaf eq ≠ none := startLeaf_eq_none_iff.not.symm
    rw [hleaves]
    cases g.startLeaf eq with
    | none => exact iff_of_false (fun h => h rfl) (fun h => h.elim hsize fun h => h rfl)
    | some start => exact iff_of_true (walk_start_ne_nil g start) (.inr (Option.some_ne_none start))

/-! ## Trees -/

/-- Within a joined graph every entity is reached through entities of the graph. -/
theorem connected_induce (hg : g.IsJoined) (hne : g.names ≠ []) :
    (g.adjacency.induce {v | v ∈ g.names}).Connected := by
  obtain ⟨start, hstart⟩ := List.exists_mem_of_ne_nil _ hne
  refine SimpleGraph.connected_iff_exists_forall_reachable _ |>.mpr ⟨⟨start, hstart⟩, ?_⟩
  rintro ⟨v, hv⟩
  -- a walk in the graph stays within it
  refine (@of_reachable g start v (fun v => ∃ hv : v ∈ g.names,
    (g.adjacency.induce {v | v ∈ g.names}).Reachable ⟨start, hstart⟩ ⟨v, hv⟩)
    (fun x hx y hy => ?_) ⟨hstart, .refl _⟩ (hg.joined start hstart v hv)).2
  obtain ⟨hxmem, hx⟩ := hx
  refine ⟨hg.keepsWalks x hxmem y hy, ?_⟩
  by_cases hxy : x = y
  · subst hxy
    exact hx
  · exact hx.trans (SimpleGraph.Adj.reachable
      (SimpleGraph.comap_adj.mpr (adj_iff.mpr ⟨hxy, mem_neighbors.mp hy⟩)))

/-- An entity that is joined to one other only is a leaf. -/
theorem mem_leaves_of_subset {w : String} (hv : v ∈ g.names) (hw : ∀ y ∈ g.neighbors v, y = w) :
    v ∈ g.leaves := by
  have hsubset : g.neighbors v ⊆ [w] := fun y hy => List.mem_singleton.mpr (hw y hy)
  have hnodup : (g.neighbors v).Nodup := SortedSet.nodup_toList _
  exact List.mem_filter.mpr
    ⟨hv, decide_eq_true (List.subperm_of_subset hnodup hsubset).length_le⟩

/-- **TREES HAVE A START**. -/
theorem hasStart_of_isTree (h : g.IsTree) : g.HasStart := by
  classical
  rcases hnames : g.names with _ | ⟨a, _ | ⟨b, rest⟩⟩
  · exact .inl (by rw [← length_names, hnames]; exact Nat.zero_le 1)
  · exact .inl (by rw [← length_names, hnames]; exact Nat.le_refl 1)
  · have hmem : a ∈ g.names ∧ b ∈ g.names := by
      rw [hnames]
      exact ⟨List.mem_cons_self, List.mem_cons_of_mem _ List.mem_cons_self⟩
    have hne : a ≠ b := by
      have hnodup := nodup_names g
      rw [hnames] at hnodup
      rintro rfl
      exact (List.nodup_cons.mp hnodup).1 List.mem_cons_self
    have : Finite {v | v ∈ g.names} := List.finite_toSet g.names
    have : Nontrivial {v | v ∈ g.names} := ⟨⟨a, hmem.1⟩, ⟨b, hmem.2⟩, fun heq =>
      hne (congrArg Subtype.val heq)⟩
    have := Fintype.ofFinite {v | v ∈ g.names}
    have htree : (g.adjacency.induce {v | v ∈ g.names}).IsTree :=
      ⟨connected_induce h.isJoined (List.ne_nil_of_mem hmem.1), h.acyclic.induce _⟩
    obtain ⟨v, hv⟩ := htree.exists_vert_degree_one_of_nontrivial
    obtain ⟨w, -, hunique⟩ := SimpleGraph.degree_eq_one_iff_existsUnique_adj.mp hv
    refine .inr (List.ne_nil_of_mem (mem_leaves_of_subset v.2 fun y (hy : y ∈ g.neighbors v) =>
      (?_ : y = w)))
    obtain ⟨e, he, hjoins⟩ := mem_neighbors.mp hy
    have hadj : g.adjacency.Adj v y := adj_iff.mpr ⟨ne_of_joins h he hjoins, e, he, hjoins⟩
    exact congrArg Subtype.val (hunique ⟨y, h.closed.keepsWalks v v.2 y hy⟩
      (SimpleGraph.comap_adj.mpr hadj))

end IndexDesign.JoinGraph
