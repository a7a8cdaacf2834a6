import IndexDesign.Proofs.Graph.Connected

/-! # Join orders — depth-first walks visit what is connected

    A walk visits no entity twice.  It is allowed as many pops as its stack and
    the neighbours of what is not visited yet make: a pop of a visited entity
    shortens the stack, a pop of a new one puts its neighbours on the stack and
    takes them out of what is pending.  So it ends with an empty stack, and
    what it has visited is closed under neighbours.

    Where walks from entities meet entities only, a join order has entities
    only.  The join order of a joined graph therefore lists each of its entities
    once, unless it is empty because the graph has no leaf. -/

namespace IndexDesign.JoinGraph

variable {g : JoinGraph} {eq : FieldSet} {v : String}

/-- The number of neighbours of the names that are not visited. -/
def pending (g : JoinGraph) (order : List String) : Nat :=
  ((g.nodes.filter (! order.contains ·)).map fun v => (g.neighbors v).length).sum

/-- Visiting an entity takes its neighbours out of what is pending. -/
theorem pending_append (hv : v ∈ g.nodes) {order : List String} (hnew : v ∉ order) :
    (g.neighbors v).length + g.pending (order ++ [v]) = g.pending order := by
  have hmem : v ∈ g.nodes.filter (! order.contains ·) := by
    simpa [List.mem_filter] using ⟨hv, hnew⟩
  have herase : g.nodes.filter (! (order ++ [v]).contains ·)
      = (g.nodes.filter (! order.contains ·)).erase v := by
    rw [((nodup_nodes g).filter _).erase_eq_filter, List.filter_filter]
    refine List.filter_congr fun w _ => ?_
    by_cases hw : w = v <;> simp [hw]
  rw [pending, herase]
  exact List.sum_map_erase (fun v => (g.neighbors v).length) hmem

/-- The pops of a join order are enough to visit everything. -/
theorem pending_nil_le (g : JoinGraph) (start : String) :
    g.pending [] + [start].length ≤ g.walkLength := by
  have hall : g.nodes.filter (! [].contains ·) = g.nodes := by simp
  rw [pending, hall, walkLength, List.length_singleton, Nat.add_comm]

theorem walk_visited {pops : Nat} {stack order : List String} (h : v ∈ order) :
    g.walk (pops + 1) (v :: stack) order = g.walk pops stack order := by
  rw [walk, if_pos (List.contains_iff_mem.mpr h)]

theorem walk_new {pops : Nat} {stack order : List String} (h : v ∉ order) :
    g.walk (pops + 1) (v :: stack) order
      = g.walk pops (g.neighbors v ++ stack) (order ++ [v]) := by
  rw [walk, if_neg fun hmem => h (List.contains_iff_mem.mp hmem)]

/-- A walk from entities visits entities of the graph, none twice. -/
theorem walk_sound (hg : g.KeepsWalks) (pops : Nat) : ∀ stack order, (∀ v ∈ stack, v ∈ g.names) →
    (∀ v ∈ order, v ∈ g.names) → order.Nodup →
      (g.walk pops stack order).Nodup ∧ ∀ v ∈ g.walk pops stack order, v ∈ g.names := by
  induction pops with
  | zero => intro stack order _ horder hnodup; exact ⟨hnodup, horder⟩
  | succ pops ih =>
      intro stack order hstack horder hnodup
      cases stack with
      | nil => exact ⟨hnodup, horder⟩
      | cons v stack =>
          obtain ⟨hv, hstack⟩ := List.forall_mem_cons.mp hstack
          by_cases hmem : v ∈ order
          · rw [walk_visited hmem]
            exact ih stack order hstack horder hnodup
          · rw [walk_new hmem]
            refine ih _ _ (fun w hw => ?_) (fun w hw => ?_) ?_
            · rcases List.mem_append.mp hw with hw | hw
              · exact hg v hv w hw
              · exact hstack w hw
            · rcases List.mem_append.mp hw with hw | hw
              · exact horder w hw
              · rw [List.mem_singleton.mp hw]
                exact hv
            · rw [← List.concat_eq_append]
              exact hnodup.concat hmem

/-- **WALKS ARE COMPLETE**: with enough pops a walk visits its whole stack, and the neighbours of
    all that it visits. -/
theorem walk_closed (pops : Nat) : ∀ stack order, (∀ v ∈ stack, v ∈ g.nodes) →
    g.pending order + stack.length ≤ pops →
      (∀ v, v ∈ order ∨ v ∈ stack → v ∈ g.walk pops stack order)
        ∧ ∀ v ∈ g.walk pops stack order,
            v ∈ order ∨ ∀ w ∈ g.neighbors v, w ∈ g.walk pops stack order := by
  induction pops with
  | zero =>
      intro stack order _ hpops
      have hstack : stack = [] := List.length_eq_zero_iff.mp (by omega)
      rw [hstack]
      exact ⟨fun v hv => by simpa [walk] using hv, fun v hv => .inl hv⟩
  | succ pops ih =>
      intro stack order hstack hpops
      cases stack with
      | nil => exact ⟨fun v hv => by simpa [walk] using hv, fun v hv => .inl hv⟩
      | cons v stack =>
          obtain ⟨hv, hstack⟩ := List.forall_mem_cons.mp hstack
          rw [List.length_cons] at hpops
          by_cases hmem : v ∈ order
          · rw [walk_visited hmem]
            obtain ⟨hkept, hclosed⟩ := ih stack order hstack (by omega)
            refine ⟨fun w hw => ?_, hclosed⟩
            rcases hw with hw | hw
            · exact hkept w (.inl hw)
            · rcases List.mem_cons.mp hw with rfl | hw
              · exact hkept w (.inl hmem)
              · exact hkept w (.inr hw)
          · rw [walk_new hmem]
            have hpending := pending_append hv hmem
            obtain ⟨hkept, hclosed⟩ := ih (g.neighbors v ++ stack) (order ++ [v]) (fun w hw => by
              rcases List.mem_append.mp hw with hw | hw
              · exact mem_nodes_of_neighbors hw
              · exact hstack w hw) (by rw [List.length_append]; omega)
            refine ⟨fun w hw => ?_, fun w hw => ?_⟩
            · rcases hw with hw | hw
              · exact hkept w (.inl (List.mem_append_left _ hw))
              · rcases List.mem_cons.mp hw with rfl | hw
                · exact hkept w (.inl (List.mem_append_right _ (List.mem_singleton.mpr rfl)))
                · exact hkept w (.inr (List.mem_append_right _ hw))
            -- the neighbours of the entity just visited have been put on the stack
            · rcases hclosed w hw with hw | hw
              · rcases List.mem_append.mp hw with hw | hw
                · exact .inl hw
                · rw [List.mem_singleton.mp hw]
                  exact .inr fun u hu => hkept u (.inr (List.mem_append_left _ hu))
              · exact .inr hw

/-! ## Starts -/

theorem mem_of_fewestRows {names : List String} (h : g.fewestRows names = some v) : v ∈ names := by
  cases names with
  | nil => exact nomatch h
  | cons name rest =>
      simp only [fewestRows, Option.some.injEq] at h
      rw [← h]
      refine List.foldlRecOn rest _ List.mem_cons_self ?_
      intro best hbest n hn
      split
      · exact List.mem_cons_of_mem _ hn
      · exact hbest

theorem mem_names_of_startLeaf (h : g.startLeaf eq = some v) : v ∈ g.names := by
  simp only [startLeaf, Option.or_eq_some_iff] at h
  rcases h with h | ⟨-, h⟩
  · exact (List.mem_filter.mp (List.mem_filter.mp (mem_of_fewestRows h)).1).1
  · exact (List.mem_filter.mp (mem_of_fewestRows h)).1

/-! ## Join orders -/

/-- A join order is that of a graph with at most one entity, a whole walk from an entity, or
    empty. -/
theorem joinOrder_cases (g : JoinGraph) (eq : FieldSet) :
    g.joinOrder eq = g.names
      ∨ (∃ start ∈ g.names, g.joinOrder eq = g.walk g.walkLength [start] [])
      ∨ g.joinOrder eq = [] := by
  simp only [joinOrder]
  split
  · exact .inl rfl
  · split
    · next start hstart => exact .inr (.inl ⟨start, mem_names_of_startLeaf hstart, rfl⟩)
    · exact .inr (.inr rfl)

theorem joinOrder_sound (hg : g.KeepsWalks) (eq : FieldSet) :
    (g.joinOrder eq).Nodup ∧ ∀ v ∈ g.joinOrder eq, v ∈ g.names := by
  rcases joinOrder_cases g eq with h | ⟨start, hstart, h⟩ | h
  · rw [h]
    exact ⟨nodup_names g, fun _ hv => hv⟩
  · rw [h]
    refine walk_sound hg _ _ _ (fun v hv => ?_) (fun v hv => nomatch hv) .nil
    rw [List.mem_singleton.mp hv]
    exact hstart
  · rw [h]
    exact ⟨.nil, fun v hv => nomatch hv⟩

/-- **JOIN ORDERS ARE COMPLETE**: where a joined graph has a join order, it has all entities. -/
theorem mem_joinOrder_iff (hg : g.IsJoined) (hne : g.joinOrder eq ≠ []) :
    v ∈ g.joinOrder eq ↔ v ∈ g.names := by
  refine ⟨(joinOrder_sound hg.keepsWalks eq).2 v, fun hv => ?_⟩
  rcases joinOrder_cases g eq with h | ⟨start, hstart, h⟩ | h
  · rw [h]
    exact hv
  · rw [h]
    obtain ⟨hkept, hclosed⟩ := walk_closed g.walkLength [start] []
      (List.forall_mem_singleton.mpr (mem_nodes_of_mem_names hstart)) (pending_nil_le g start)
    refine of_reachable (fun w hw u hu => ?_) (hkept start (.inr (List.mem_singleton.mpr rfl)))
      (hg.joined start hstart v hv)
    exact (hclosed w hw).resolve_left List.not_mem_nil u hu
  · exact absurd h hne

theorem length_joinOrder (hg : g.IsJoined) (hne : g.joinOrder eq ≠ []) :
    (g.joinOrder eq).length = g.size := by
  rw [← length_names]
  refine List.Perm.length_eq ((List.perm_ext_iff_of_nodup (joinOrder_sound hg.keepsWalks eq).1
    (nodup_names g)).mpr fun v => mem_joinOrder_iff hg hne)

end IndexDesign.JoinGraph
