import IndexDesign.Proofs.Graph.Tree

/-! # Graphs of paths

    The graph of a path is closed, connected and made of entities of the model:
    every step of the path joins the next entity to the last.  It is a tree
    where no entity is met twice. -/

namespace IndexDesign

theorem Model.of_entity_eq_ok {m : Model} {name : String} {e : Entity} (h : m.entity name = .ok e) :
    e ∈ m.entities.toList ∧ e.name = name := by
  simp only [Model.entity] at h
  split at h
  · next found hfound =>
    rw [← Except.ok.inj h]
    obtain ⟨hmem, hkey⟩ := SortedSet.of_find? hfound
    exact ⟨hmem, (List.cons.inj hkey).1⟩
  · exact nomatch h

namespace JoinGraph

variable {m : Model} {g g' : JoinGraph} {left right s t : Entity} {via : Field}

theorem ends_of_join? (h : join? left right = some (s, t, via)) :
    s = left ∧ t = right ∨ s = right ∧ t = left := by
  simp only [join?] at h
  split at h
  · simp only [Option.some.injEq, Prod.mk.injEq] at h
    exact .inl ⟨h.1.symm, h.2.1.symm⟩
  · split at h
    · simp only [Option.some.injEq, Prod.mk.injEq] at h
      exact .inr ⟨h.1.symm, h.2.1.symm⟩
    · exact nomatch h

theorem mem_entities_withEdge {e : Entity} (h : e ∈ (g.withEdge s t via).entities.toList) :
    e = t ∨ e = s ∨ e ∈ g.entities.toList := by
  rcases SortedSet.mem_place h with h | h
  · exact .inl h
  · rcases SortedSet.mem_place h with h | h
    · exact .inr (.inl h)
    · exact .inr (.inr h)

/-- The graph joins its entities, is connected, has the entity and is made of entities of the
    model. -/
structure IsConnectedAt (m : Model) (g : JoinGraph) (left : Entity) : Prop where
  closed : g.IsClosed
  connected : g.isConnected = true
  mem : left.name ∈ g.names
  entities : ∀ e ∈ g.entities.toList, e ∈ m.entities.toList

theorem IsConnectedAt.isJoined (hg : IsConnectedAt m g left) : g.IsJoined :=
  hg.closed.isJoined hg.connected

theorem isConnectedAt_single {e : Entity} (he : e ∈ m.entities.toList) :
    IsConnectedAt m (single e) e := by
  refine ⟨isClosed_single e, (isTree_single e).connected, List.mem_singleton.mpr rfl,
    fun f hf => ?_⟩
  rcases SortedSet.mem_place hf with rfl | hf
  · exact he
  · exact nomatch hf

theorem isConnectedAt_withEdge (hg : IsConnectedAt m g left) (hright : right ∈ m.entities.toList)
    (hjoin : join? left right = some (s, t, via)) (hleft : left ∈ m.entities.toList) :
    IsConnectedAt m (g.withEdge s t via) right := by
  rcases ends_of_join? hjoin with ⟨rfl, rfl⟩ | ⟨rfl, rfl⟩
  · refine ⟨hg.closed.withEdge, isConnected_withEdge hg.closed hg.connected hg.mem (.inl rfl),
      mem_names_withEdge.mpr (.inl rfl), fun e he => ?_⟩
    rcases mem_entities_withEdge he with rfl | rfl | he
    · exact hright
    · exact hleft
    · exact hg.entities e he
  · refine ⟨hg.closed.withEdge, isConnected_withEdge hg.closed hg.connected hg.mem (.inr rfl),
      mem_names_withEdge.mpr (.inr (.inl rfl)), fun e he => ?_⟩
    rcases mem_entities_withEdge he with rfl | rfl | he
    · exact hleft
    · exact hright
    · exact hg.entities e he

/-- One step along a path. -/
theorem exists_of_extend_cons {name : String} {path : List String}
    (h : extend m g left (name :: path) = .ok g') :
    ∃ right s t via, right ∈ m.entities.toList ∧ right.name = name
      ∧ join? left right = some (s, t, via)
      ∧ extend m (g.withEdge s t via) right path = .ok g' := by
  simp only [extend] at h
  cases hright : m.entity name with
  | error e => rw [hright] at h; exact nomatch h
  | ok right =>
      obtain ⟨hmem, hname⟩ := Model.of_entity_eq_ok hright
      rw [hright] at h
      dsimp only [bind, Except.bind] at h
      split at h
      · next s t via hjoin => exact ⟨right, s, t, via, hmem, hname, hjoin, h⟩
      · exact nomatch h

/-- The start of a path. -/
theorem exists_of_ofPath_cons {name : String} {path : List String}
    (h : ofPath m (name :: path) = .ok g) :
    ∃ first ∈ m.entities.toList,
      first.name = name ∧ extend m (single first) first path = .ok g := by
  simp only [ofPath] at h
  cases hfirst : m.entity name with
  | error e => rw [hfirst] at h; exact nomatch h
  | ok first =>
      obtain ⟨hmem, hname⟩ := Model.of_entity_eq_ok hfirst
      rw [hfirst] at h
      exact ⟨first, hmem, hname, h⟩

theorem isConnectedAt_extend (path : List String) : ∀ g left, IsConnectedAt m g left →
    left ∈ m.entities.toList → extend m g left path = .ok g' →
      ∃ last, IsConnectedAt m g' last := by
  induction path with
  | nil =>
      intro g left hg _ h
      rw [← Except.ok.inj h]
      exact ⟨left, hg⟩
  | cons name path ih =>
      intro g left hg hleft h
      obtain ⟨right, s, t, via, hright, -, hjoin, h⟩ := exists_of_extend_cons h
      exact ih _ right (isConnectedAt_withEdge hg hright hjoin hleft) hright h

/-- **PATHS ARE CONNECTED**: the graph of a path is connected, not empty and made of entities of
    the model. -/
theorem isConnectedAt_ofPath {path : List String} (h : ofPath m path = .ok g) :
    ∃ last, IsConnectedAt m g last := by
  cases path with
  | nil => exact nomatch h
  | cons name path =>
      obtain ⟨first, hmem, -, h⟩ := exists_of_ofPath_cons h
      exact isConnectedAt_extend path _ first (isConnectedAt_single hmem) hmem h

/-! ## Keys of paths -/

/-- Every edge runs along a foreign key of its source. -/
def RunsAlongKeys (g : JoinGraph) : Prop := ∀ e ∈ g.edges.toList, e.via.entity = e.source

instance (g : JoinGraph) : Decidable g.RunsAlongKeys :=
  inferInstanceAs (Decidable (∀ e ∈ g.edges.toList, e.via.entity = e.source))

theorem runsAlongKeys_single (x : Entity) : (single x).RunsAlongKeys := fun _ he =>
  absurd he List.not_mem_nil

theorem mem_fields_of_join? (h : join? left right = some (s, t, via)) : via ∈ s.fields.toList := by
  have hfirst : ∀ {a b : Entity} {f : Field} {rest : List Field},
      a.foreignKeysTo b.name = f :: rest → f ∈ a.fields.toList := by
    intro a b f rest hkeys
    have hmem : f ∈ a.foreignKeysTo b.name := by rw [hkeys]; exact List.mem_cons_self
    exact (List.mem_filter.mp hmem).1
  simp only [join?] at h
  split at h
  · next hkeys =>
    simp only [Option.some.injEq, Prod.mk.injEq] at h
    obtain ⟨rfl, -, rfl⟩ := h
    exact hfirst hkeys
  · split at h
    · next hkeys =>
      simp only [Option.some.injEq, Prod.mk.injEq] at h
      obtain ⟨rfl, -, rfl⟩ := h
      exact hfirst hkeys
    · exact nomatch h

theorem runsAlongKeys_extend (hm : ∀ e ∈ m.entities.toList, ∀ f ∈ e.fields.toList,
      f.entity = e.name) (path : List String) : ∀ g left, g.RunsAlongKeys →
    left ∈ m.entities.toList → extend m g left path = .ok g' → g'.RunsAlongKeys := by
  induction path with
  | nil =>
      intro g left hg _ h
      rw [← Except.ok.inj h]
      exact hg
  | cons name path ih =>
      intro g left hg hleft h
      obtain ⟨right, s, t, via, hright, -, hjoin, h⟩ := exists_of_extend_cons h
      refine ih _ right (fun e he => ?_) hright h
      rcases SortedSet.mem_place he with rfl | he
      · refine hm s ?_ via (mem_fields_of_join? hjoin)
        rcases ends_of_join? hjoin with ⟨rfl, -⟩ | ⟨rfl, -⟩
        · exact hleft
        · exact hright
      · exact hg e he

/-- The joins of a path are along keys of the model. -/
theorem runsAlongKeys_ofPath (hm : ∀ e ∈ m.entities.toList, ∀ f ∈ e.fields.toList,
    f.entity = e.name) {path : List String} (h : ofPath m path = .ok g) : g.RunsAlongKeys := by
  cases path with
  | nil => exact nomatch h
  | cons name path =>
      obtain ⟨first, hmem, -, h⟩ := exists_of_ofPath_cons h
      exact runsAlongKeys_extend hm path _ first (runsAlongKeys_single first) hmem h

/-! ## Paths that are trees -/

theorem isTree_extend (path : List String) : ∀ g left, g.IsTree → left.name ∈ g.names →
    path.Nodup → (∀ n ∈ path, n ∉ g.names) → extend m g left path = .ok g' → g'.IsTree := by
  induction path with
  | nil =>
      intro g left hg _ _ _ h
      rw [← Except.ok.inj h]
      exact hg
  | cons name path ih =>
      intro g left hg hleft hnodup hnew h
      obtain ⟨right, s, t, via, -, rfl, hjoin, h⟩ := exists_of_extend_cons h
      obtain ⟨hnotin, hnodup⟩ := List.nodup_cons.mp hnodup
      have hfresh := hnew right.name List.mem_cons_self
      have hgrows : g.GrowsFrom left.name right.name s t := by
        refine ⟨hleft, hfresh, ?_⟩
        rcases ends_of_join? hjoin with ⟨rfl, rfl⟩ | ⟨rfl, rfl⟩
        · exact .inl ⟨rfl, rfl⟩
        · exact .inr ⟨rfl, rfl⟩
      refine ih _ right (isTree_withEdge hg hgrows) (hgrows.mem_names.mpr (.inl rfl)) hnodup
        ?_ h
      intro n hn hmem
      rcases hgrows.mem_names.mp hmem with rfl | hmem
      · exact hnotin hn
      · exact hnew n (List.mem_cons_of_mem _ hn) hmem

/-- **PATHS OF DISTINCT ENTITIES ARE TREES**. -/
theorem isTree_ofPath {path : List String} (hnodup : path.Nodup) (h : ofPath m path = .ok g) :
    g.IsTree := by
  cases path with
  | nil => exact nomatch h
  | cons name path =>
      obtain ⟨first, -, rfl, hextend⟩ := exists_of_ofPath_cons h
      obtain ⟨hnotin, hnodup⟩ := List.nodup_cons.mp hnodup
      refine isTree_extend path _ first (isTree_single first) (List.mem_singleton.mpr rfl) hnodup
        (fun n hn hmem => ?_) hextend
      rw [names_single, List.mem_singleton] at hmem
      exact hnotin (hmem ▸ hn)

end JoinGraph

end IndexDesign
