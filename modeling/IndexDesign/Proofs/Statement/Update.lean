import IndexDesign.Proofs.Graph.Path
import IndexDesign.Proofs.Pointwise
import IndexDesign.Statement.Update

/-! # Updates that are accepted

    An update that is built writes fields of its entity, along a connected
    graph that has this entity, and its conditions lie on that graph.  Only an
    insert does without conditions, and only an insert that names no field
    writes whatever the entity lists. -/

namespace IndexDesign.Update

variable {α : Type} {m : Model} {d : Draft α} {u : Update α} {e : Entity} {kind : UpdateKind}
  {names : List String}

/-- A written field is one of the entity's. -/
theorem entity_of_settingOf {name : String} {f : Field} (h : settingOf m e name = .ok f) :
    f.entity = e.name := by
  simp only [settingOf] at h
  obtain ⟨field, -, h⟩ := exists_of_bind_eq_ok h
  split at h
  · next hentity =>
    rw [← Except.ok.inj h]
    exact hentity
  · exact nomatch h

/-- Settings that are accepted are fields of the entity that the draft names, or for an insert all
    that the entity lists. -/
theorem entity_of_settingsOf {settings : FieldSet} (h : settingsOf m e kind names = .ok settings) :
    kind = .insert ∧ settings = e.fields ∨ ∀ f ∈ settings.toList, f.entity = e.name := by
  simp only [settingsOf] at h
  obtain ⟨fields, hfields, h⟩ := exists_of_bind_eq_ok h
  have hnamed : ∀ f ∈ (SortedSet.extend ∅ fields).toList, f.entity = e.name := by
    intro f hf
    obtain ⟨name, -, hname⟩ := exists_of_forall₂_right ((mapM_eq_ok_iff _ fields).mp hfields)
      (SortedSet.mem_of_mem_toList_extend hf)
    exact entity_of_settingOf hname
  split at h
  · cases kind with
    | insert => exact .inl ⟨rfl, (Except.ok.inj h).symm⟩
    | update => exact nomatch h
    | delete =>
        rw [← Except.ok.inj h]
        exact .inr hnamed
  · rw [← Except.ok.inj h]
    exact .inr hnamed

/-- Conditions that are accepted lie on the graph; only an insert has none. -/
theorem mem_names_of_conditionsOf {g : JoinGraph} {eq : FieldSet}
    (h : conditionsOf m g kind names = .ok eq) :
    (∀ f ∈ eq.toList, f.entity ∈ g.names) ∧ (kind ≠ .insert → eq.isEmpty = false) := by
  simp only [conditionsOf] at h
  obtain ⟨fields, hfields, h⟩ := exists_of_bind_eq_ok h
  split at h
  · exact nomatch h
  · next hneeded =>
    rw [← Except.ok.inj h]
    refine ⟨fun f hf => ?_, fun hkind => Bool.eq_false_iff.mpr fun hnone => hneeded ⟨hkind, hnone⟩⟩
    obtain ⟨name, -, hname⟩ := exists_of_forall₂_right ((mapM_eq_ok_iff _ fields).mp hfields)
      (SortedSet.mem_of_mem_toList_extend hf)
    simp only [conditionOn] at hname
    obtain ⟨field, -, hname⟩ := exists_of_bind_eq_ok hname
    split at hname
    · next hcovers =>
      rw [← Except.ok.inj hname]
      exact JoinGraph.contains_iff.mp hcovers
    · exact nomatch hname

/-- What an update over the model that is accepted has passed. -/
structure IsAccepted (m : Model) (u : Update α) : Prop where
  entity : u.entity ∈ m.entities.toList
  /-- Without a path the graph is that of the entity alone. -/
  path : u.graph = JoinGraph.single u.entity ∨ ∃ path, JoinGraph.ofPath m path = .ok u.graph
  onPath : u.entity.name ∈ u.graph.names
  settings : u.kind = .insert ∧ u.settings = u.entity.fields
    ∨ ∀ f ∈ u.settings.toList, f.entity = u.entity.name
  conditions : ∀ f ∈ u.eq.toList, f.entity ∈ u.graph.names
  conditioned : u.kind ≠ .insert → u.eq.isEmpty = false

/-- **UPDATES THAT ARE BUILT ARE ACCEPTED**. -/
theorem isAccepted_of_build (h : build m d = .ok u) : u.IsAccepted m := by
  obtain ⟨entity, hentity, h⟩ := exists_of_bind_eq_ok h
  have hmem := (Model.of_entity_eq_ok hentity).1
  dsimp only at h
  -- whether the graph is that of the entity or of a path, the rest is the same
  split at h
  all_goals
    obtain ⟨graph, hgraph, h⟩ := exists_of_bind_eq_ok h
    have hpath : graph = JoinGraph.single entity ∨ ∃ path, JoinGraph.ofPath m path = .ok graph := by
      first
        | exact .inl (Except.ok.inj hgraph).symm
        | exact .inr ⟨_, hgraph⟩
    split at h
    · next hcontains =>
      obtain ⟨settings, hsettings, h⟩ := exists_of_bind_eq_ok h
      obtain ⟨eq, heq, h⟩ := exists_of_bind_eq_ok h
      obtain ⟨hconditions, hconditioned⟩ := mem_names_of_conditionsOf heq
      rw [← Except.ok.inj h]
      exact ⟨hmem, hpath, JoinGraph.contains_iff.mp hcontains, entity_of_settingsOf hsettings,
        hconditions, hconditioned⟩
    · exact nomatch h

namespace IsAccepted

/-- The graph of an update that is accepted is connected and made of entities of the model. -/
theorem graph (h : u.IsAccepted m) : ∃ last, JoinGraph.IsConnectedAt m u.graph last := by
  rcases h.path with hsingle | ⟨path, hpath⟩
  · rw [hsingle]
    exact ⟨_, JoinGraph.isConnectedAt_single h.entity⟩
  · exact JoinGraph.isConnectedAt_ofPath hpath

/-- What an update in place writes belongs to its entity. -/
theorem entity_of_update (h : u.IsAccepted m) (hkind : u.kind = .update) :
    ∀ f ∈ u.settings.toList, f.entity = u.entity.name := by
  rcases h.settings with ⟨hinsert, -⟩ | hall
  · exact nomatch hkind.symm.trans hinsert
  · exact hall

end IsAccepted

end IndexDesign.Update
