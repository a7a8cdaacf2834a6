import IndexDesign.Proofs.Graph.Parts
import IndexDesign.Proofs.Index.Build
import IndexDesign.Proofs.Plan.Aggregation
import IndexDesign.Proofs.Statement.Update

/-! # Support queries fetch what is missing

    A statement gives a value for the fields that it writes and those of its
    conditions, and for the identifiers of the entities that a written foreign
    key points to.  The other fields of an index have to be fetched.

    An update or delete fetches them all at once, on the index's graph joined
    to its own.  An insert cannot start from its row, which is not there yet:
    it fetches on each part of the index's graph without the inserted entity,
    from the entities that its foreign keys point to.  So what it does not give
    of the inserted entity itself is fetched nowhere.

    Where the graph of an index is closed its parts are connected components
    and told by their entities. -/

namespace IndexDesign.Update

variable {α : Type} {m : Model} {d : Draft α} {u : Update α} {i : Index} {f : Field}
  {g part : JoinGraph}

/-- A foreign key that is written points to the entity. -/
def PointsTo (u : Update α) (entity : String) : Prop :=
  ∃ f ∈ u.settings.toList, f.foreignTarget = some entity

/-- The statement gives a value for the field of the index: it writes the field, asks for it in a
    condition, or points to the entity that it identifies. -/
def Gives (u : Update α) (i : Index) (f : Field) : Prop :=
  f ∈ u.settings ∨ f ∈ u.eq
    ∨ ∃ e ∈ i.graph.entities.toList, u.PointsTo e.name ∧ key e.id = key f

instance (entity : String) : Decidable (u.PointsTo entity) :=
  inferInstanceAs (Decidable (∃ f ∈ u.settings.toList, f.foreignTarget = some entity))

instance : Decidable (u.Gives i f) :=
  inferInstanceAs (Decidable (f ∈ u.settings ∨ f ∈ u.eq
    ∨ ∃ e ∈ i.graph.entities.toList, u.PointsTo e.name ∧ key e.id = key f))

/-! ## Fields that are missing -/

theorem mem_pointedIds :
    f ∈ u.pointedIds g ↔ ∃ e ∈ g.entities.toList, u.PointsTo e.name ∧ e.id = f := by
  simp only [pointedIds, List.mem_map, List.mem_filterMap]
  constructor
  · rintro ⟨e, ⟨target, ⟨s, hs, htarget⟩, he⟩, rfl⟩
    obtain ⟨hmem, rfl⟩ := JoinGraph.mem_of_entity?_eq_some he
    exact ⟨e, hmem, ⟨s, hs, htarget⟩, rfl⟩
  · rintro ⟨e, he, ⟨s, hs, htarget⟩, rfl⟩
    exact ⟨e, ⟨e.name, ⟨s, hs, htarget⟩, JoinGraph.entity?_eq_some_of_mem he⟩, rfl⟩

/-- The missing fields are those of the index that are not given. -/
theorem mem_missing : f ∈ u.missing i ↔ f ∈ i.allFields ∧ ¬ u.Gives i f := by
  rw [missing, SortedSet.mem_diff, SortedSet.mem_extend, given, SortedSet.mem_union, or_assoc]
  refine and_congr_right fun _ => not_congr (or_congr_right (or_congr_right ?_))
  constructor
  · rintro ⟨x, hx, hkey⟩
    obtain ⟨e, he, hpoints, rfl⟩ := mem_pointedIds.mp hx
    exact ⟨e, he, hpoints, hkey⟩
  · rintro ⟨e, he, hpoints, hkey⟩
    exact ⟨e.id, mem_pointedIds.mpr ⟨e, he, hpoints, rfl⟩, hkey⟩

theorem isEmpty_missing_iff :
    (u.missing i).isEmpty = true ↔ ∀ f ∈ i.allFields, u.Gives i f := by
  simp only [SortedSet.isEmpty_iff, mem_missing, not_and, not_not]

/-! ## Updates and deletes -/

/-- The query fetches what the update does not give of the index, on a graph that joins the
    index's and the update's. -/
structure IsSupportedBy (u : Update α) (i : Index) (q : Query α) : Prop where
  select : ∀ f, f ∈ q.select ↔ f ∈ i.allFields ∧ ¬ u.Gives i f
  /-- Nothing else is fetched. -/
  required : q.required = q.select
  eq : q.eq = u.eq
  connected : q.graph.isConnected = true
  contains : q.graph.containsGraph i.graph = true
  covers : ∀ f ∈ q.select.toList ++ q.eq.toList, q.graph.coversField f = true

/-- The entity of an update that modifies the index is one that the index joins. -/
theorem mem_names_of_modifies (hu : u.IsAccepted m) (hi : i.IsWellFormed)
    (hmodifies : u.modifies i = true) : u.entity.name ∈ i.graph.names := by
  cases hkind : u.kind with
  | insert =>
      simp only [modifies, hkind] at hmodifies
      exact JoinGraph.contains_iff.mp hmodifies
  | delete =>
      simp only [modifies, hkind] at hmodifies
      exact JoinGraph.contains_iff.mp hmodifies
  | update =>
      simp only [modifies, hkind, List.any_eq_true] at hmodifies
      obtain ⟨f, hf, hstored⟩ := hmodifies
      rw [← hu.entity_of_update hkind f hf]
      exact hi.mem_names_of_mem_allFields hstored

/-- What an update or delete asks for. -/
theorem supportQueries_of_kind_ne (hkind : u.kind ≠ .insert) (heq : u.eq.isEmpty = false) :
    u.supportQueries i = if (u.missing i).isEmpty then some []
      else some [u.supportQuery i (i.graph.union u.graph) (u.missing i) u.eq] := by
  simp only [supportQueries]
  split
  · rfl
  · split
    · next hinsert => exact absurd hinsert hkind
    all_goals rw [heq, if_neg Bool.false_ne_true]

/-- The one query of an update or delete supports the index. -/
theorem isSupportedBy_supportQuery (hu : u.IsAccepted m) (hi : i.IsWellFormed)
    (hclosed : i.graph.IsClosed) (hmodifies : u.modifies i = true) :
    u.IsSupportedBy i (u.supportQuery i (i.graph.union u.graph) (u.missing i) u.eq) := by
  obtain ⟨last, hgraph⟩ := hu.graph
  refine ⟨fun f => mem_missing, rfl, rfl, ?_, JoinGraph.containsGraph_union _ _, fun f hf => ?_⟩
  · exact JoinGraph.isConnected_union hclosed hgraph.closed hi.connected hgraph.connected
      (mem_names_of_modifies hu hi hmodifies) hu.onPath
  · refine JoinGraph.contains_iff.mpr (JoinGraph.mem_names_union.mpr ?_)
    rcases List.mem_append.mp hf with hf | hf
    · have hmissing := mem_missing.mp (SortedSet.mem_of_mem_toList hf)
      exact .inl (hi.mem_names_of_mem_allFields hmissing.1)
    · exact .inr (hu.conditions f hf)

/-! ## Inserts -/

/-- A part of the index's graph without the inserted entity cannot be asked: a field is missing on
    it, and no written foreign key points into it. -/
structure IsCutOff (u : Update α) (i : Index) (part : JoinGraph) : Prop where
  isComponent : (i.graph.without [u.entity.name]).IsComponent part
  misses : ∃ f ∈ i.allFields, f.entity ∈ part.names ∧ ¬ u.Gives i f
  unpointed : ∀ e ∈ part.entities.toList, ¬ u.PointsTo e.name

/-- The queries of an insert: each is about one part of the index's graph without the inserted
    entity and starts from entities of the part that are pointed to; together they fetch what is
    missing on these parts. -/
structure AreSupportOf (u : Update α) (i : Index) (queries : List (Query α)) : Prop where
  isComponent : ∀ q ∈ queries, (i.graph.without [u.entity.name]).IsComponent q.graph
  distinct : queries.Pairwise fun p q => (p.graph == q.graph) = false
  asks : ∀ q ∈ queries, ∃ f, f ∈ q.select
  disjoint : queries.Pairwise fun p q => ∀ f, f ∈ p.select → f ∉ q.select
  together : ∀ f, (∃ q ∈ queries, f ∈ q.select)
    ↔ f ∈ i.allFields ∧ f.entity ≠ u.entity.name ∧ ¬ u.Gives i f
  /-- Nothing else is fetched. -/
  required : ∀ q ∈ queries, q.required = q.select
  eq : ∀ q ∈ queries, ∀ f ∈ q.eq.toList,
    ∃ e ∈ q.graph.entities.toList, u.PointsTo e.name ∧ e.id = f
  conditioned : ∀ q ∈ queries, q.eq.isEmpty = false

/-- What is selected on a part. -/
theorem mem_filter_missing : f ∈ (u.missing i).filter part.coversField
    ↔ f ∈ i.allFields ∧ f.entity ∈ part.names ∧ ¬ u.Gives i f := by
  have hentity : ∀ x : Field, key x = key f → x.entity = f.entity := fun x hkey =>
    (List.cons.inj hkey).1
  rw [SortedSet.mem_filter]
  constructor
  · rintro ⟨x, hx, hcovers, hkey⟩
    obtain ⟨hfield, hmissing⟩ :=
      mem_missing.mp ((SortedSet.mem_congr hkey).mp (SortedSet.mem_of_mem_toList hx))
    exact ⟨hfield, hentity x hkey ▸ JoinGraph.contains_iff.mp hcovers, hmissing⟩
  · rintro ⟨hfield, hcovers, hmissing⟩
    obtain ⟨x, hx, hkey⟩ := SortedSet.mem_iff.mp (mem_missing.mpr ⟨hfield, hmissing⟩)
    exact ⟨x, hx, JoinGraph.contains_iff.mpr ((hentity x hkey).symm ▸ hcovers), hkey⟩

theorem isEmpty_pointed_iff : (SortedSet.ofList (u.pointedIds part)).isEmpty = true
    ↔ ∀ e ∈ part.entities.toList, ¬ u.PointsTo e.name := by
  rw [SortedSet.isEmpty_iff]
  constructor
  · intro h e he hpoints
    exact h e.id (SortedSet.mem_ofList.mpr ⟨_, mem_pointedIds.mpr ⟨e, he, hpoints, rfl⟩, rfl⟩)
  · intro h f hf
    obtain ⟨x, hx, -⟩ := SortedSet.mem_ofList.mp hf
    obtain ⟨e, he, hpoints, -⟩ := mem_pointedIds.mp hx
    exact h e he hpoints

/-- A part gives no answer where it is asked for something and nothing points into it. -/
theorem partQuery_eq_none_iff : u.partQuery i part = none ↔
    (∃ f ∈ i.allFields, f.entity ∈ part.names ∧ ¬ u.Gives i f)
      ∧ ∀ e ∈ part.entities.toList, ¬ u.PointsTo e.name := by
  have hselect : ¬ ((u.missing i).filter part.coversField).isEmpty = true
      ↔ ∃ f ∈ i.allFields, f.entity ∈ part.names ∧ ¬ u.Gives i f := by
    simp only [SortedSet.isEmpty_iff, mem_filter_missing, not_forall, not_not]
  rw [← isEmpty_pointed_iff, ← hselect]
  simp only [partQuery]
  split
  · next hempty => simp [hempty]
  · next hasks =>
    split
    · next hpointed => exact iff_of_true rfl ⟨hasks, hpointed⟩
    · next hpointed => exact iff_of_false (nomatch ·) fun h => hpointed h.2

/-- The query of a part. -/
structure IsPartQuery (u : Update α) (i : Index) (part : JoinGraph) (q : Query α) : Prop where
  graph : q.graph = part
  select : ∀ f, f ∈ q.select ↔ f ∈ i.allFields ∧ f.entity ∈ part.names ∧ ¬ u.Gives i f
  asks : ∃ f, f ∈ q.select
  required : q.required = q.select
  eq : ∀ f ∈ q.eq.toList, ∃ e ∈ part.entities.toList, u.PointsTo e.name ∧ e.id = f
  conditioned : q.eq.isEmpty = false

/-- A part that is asked for something gives a query for it. -/
theorem isPartQuery_of_partQuery {q : Query α} (h : (u.partQuery i part).join = some q) :
    u.IsPartQuery i part q := by
  simp only [partQuery] at h
  split at h
  · exact nomatch h
  · next hselect =>
    split at h
    · exact nomatch h
    · next hpointed =>
      rw [← Option.some.inj h]
      refine ⟨rfl, fun f => mem_filter_missing, ?_, rfl, fun f hf => ?_,
        Bool.eq_false_iff.mpr hpointed⟩
      · rw [SortedSet.isEmpty_iff, not_forall] at hselect
        obtain ⟨f, hf⟩ := hselect
        exact ⟨f, not_not.mp hf⟩
      · exact mem_pointedIds.mp (SortedSet.mem_of_mem_toList_ofList hf)

theorem exists_of_partQuery_ne_none (h : u.partQuery i part ≠ none)
    (hmisses : ∃ f ∈ i.allFields, f.entity ∈ part.names ∧ ¬ u.Gives i f) :
    ∃ q, (u.partQuery i part).join = some q := by
  have hselect : ¬ ((u.missing i).filter part.coversField).isEmpty = true := by
    obtain ⟨f, hfield, hcovers, hgives⟩ := hmisses
    rw [SortedSet.isEmpty_iff]
    exact fun hnone => hnone f (mem_filter_missing.mpr ⟨hfield, hcovers, hgives⟩)
  simp only [partQuery, if_neg hselect] at h ⊢
  split at h
  · exact absurd rfl h
  · next hpointed => exact ⟨_, by rw [if_neg hpointed]; rfl⟩

/-- What an insert asks for, part by part. -/
theorem supportQueries_of_kind_eq (hkind : u.kind = .insert) :
    u.supportQueries i = ((i.graph.split u.entity.name false).mapM (u.partQuery i)).map
      (·.filterMap id) := by
  simp only [supportQueries, hkind]
  split
  · next hnone =>
    -- no part is asked for anything
    have hpart : ∀ part, u.partQuery i part = some none := fun part => by
      simp only [partQuery, SortedSet.isEmpty_filter hnone, if_true]
    induction i.graph.split u.entity.name false with
    | nil => rfl
    | cons part parts ih =>
        rw [List.mapM_cons, hpart]
        cases hparts : parts.mapM (u.partQuery i) with
        | none =>
            rw [hparts] at ih
            exact nomatch ih
        | some found =>
            rw [hparts] at ih
            exact ih
  · cases (i.graph.split u.entity.name false).mapM (u.partQuery i) with
    | none => rfl
    | some found => rfl

/-- An insert has no queries exactly where a part is cut off. -/
theorem supportQueries_eq_none_iff (hclosed : i.graph.IsClosed) (hkind : u.kind = .insert) :
    u.supportQueries i = none ↔ ∃ part, u.IsCutOff i part := by
  rw [supportQueries_of_kind_eq hkind, Option.map_eq_none_iff, mapM_eq_none_iff]
  constructor
  · rintro ⟨part, hpart, hnone⟩
    obtain ⟨hmisses, hunpointed⟩ := partQuery_eq_none_iff.mp hnone
    exact ⟨part, JoinGraph.isComponent_of_mem_split hclosed hpart, hmisses, hunpointed⟩
  · rintro ⟨part, hcomponent, ⟨f, hfield, hcovers, hgives⟩, hunpointed⟩
    -- the split has a part with the same entities
    obtain ⟨p, hp, hbeq⟩ := JoinGraph.exists_beq_of_isComponent hclosed hcomponent
    have hnames : p.names = part.names := JoinGraph.names_eq_of_beq hbeq
    refine ⟨p, hp, partQuery_eq_none_iff.mpr ⟨⟨f, hfield, hnames ▸ hcovers, hgives⟩, ?_⟩⟩
    intro e he
    have hmem : e.name ∈ part.names := hnames ▸ List.mem_map_of_mem he
    obtain ⟨e', he', hname⟩ := List.mem_map.mp hmem
    rw [← hname]
    exact hunpointed e' he'

/-- The queries of the parts that are asked for something. -/
def partQueries (u : Update α) (i : Index) : List (Query α) :=
  (i.graph.split u.entity.name false).filterMap fun part => (u.partQuery i part).join

theorem eq_partQueries_of_supportQueries (hkind : u.kind = .insert) {queries : List (Query α)}
    (h : u.supportQueries i = some queries) : queries = u.partQueries i
      ∧ ∀ part ∈ i.graph.split u.entity.name false, u.partQuery i part ≠ none := by
  rw [supportQueries_of_kind_eq hkind] at h
  obtain ⟨found, hfound, rfl⟩ := Option.map_eq_some_iff.mp h
  refine ⟨filterMap_id_of_forall₂ (forall₂_of_mapM_eq_some _ _ hfound), ?_⟩
  intro part hpart hnone
  have hfail := (mapM_eq_none_iff _).mpr ⟨part, hpart, hnone⟩
  rw [hfound] at hfail
  exact nomatch hfail

theorem exists_of_mem_partQueries (hclosed : i.graph.IsClosed) {q : Query α}
    (hq : q ∈ u.partQueries i) :
    (i.graph.without [u.entity.name]).IsComponent q.graph ∧ u.IsPartQuery i q.graph q := by
  obtain ⟨part, hpart, hjoin⟩ := List.mem_filterMap.mp hq
  have hof := isPartQuery_of_partQuery hjoin
  rw [hof.graph]
  exact ⟨JoinGraph.isComponent_of_mem_split hclosed hpart, hof⟩

/-- Parts share no entity, so no two queries are about the same one. -/
theorem pairwise_partQueries (u : Update α) (i : Index) :
    (u.partQueries i).Pairwise fun p q => ∀ a ∈ p.graph.names, a ∉ q.graph.names := by
  refine List.pairwise_filterMap.mpr ((JoinGraph.pairwise_split _ _).imp ?_)
  intro p' q' hdisjoint p hp q hq
  rw [(isPartQuery_of_partQuery hp).graph, (isPartQuery_of_partQuery hq).graph]
  exact hdisjoint

/-- Where every part gives an answer, what is missing is selected, but for the fields of the
    inserted entity. -/
theorem exists_mem_partQueries_iff (hi : i.IsWellFormed)
    (hparts : ∀ part ∈ i.graph.split u.entity.name false, u.partQuery i part ≠ none) :
    (∃ q ∈ u.partQueries i, f ∈ q.select)
      ↔ f ∈ i.allFields ∧ f.entity ≠ u.entity.name ∧ ¬ u.Gives i f := by
  constructor
  · rintro ⟨q, hq, hf⟩
    obtain ⟨part, hpart, hjoin⟩ := List.mem_filterMap.mp hq
    obtain ⟨hfield, hcovers, hgives⟩ := ((isPartQuery_of_partQuery hjoin).select f).mp hf
    exact ⟨hfield, (JoinGraph.mem_names_of_mem_split hpart hcovers).2, hgives⟩
  · rintro ⟨hfield, hentity, hgives⟩
    obtain ⟨part, hpart, hcovers⟩ :=
      JoinGraph.exists_mem_split (hi.mem_names_of_mem_allFields hfield) hentity
    obtain ⟨q, hq⟩ :=
      exists_of_partQuery_ne_none (hparts part hpart) ⟨f, hfield, hcovers, hgives⟩
    refine ⟨q, List.mem_filterMap.mpr ⟨part, hpart, hq⟩, ?_⟩
    exact ((isPartQuery_of_partQuery hq).select f).mpr ⟨hfield, hcovers, hgives⟩

/-- The queries of an insert support the index. -/
theorem areSupportOf_of_supportQueries (hi : i.IsWellFormed) (hclosed : i.graph.IsClosed)
    (hkind : u.kind = .insert) {queries : List (Query α)}
    (h : u.supportQueries i = some queries) : u.AreSupportOf i queries := by
  obtain ⟨rfl, hparts⟩ := eq_partQueries_of_supportQueries hkind h
  have hapart := pairwise_partQueries u i
  have hof : ∀ q ∈ u.partQueries i, (i.graph.without [u.entity.name]).IsComponent q.graph
      ∧ u.IsPartQuery i q.graph q := fun q hq => exists_of_mem_partQueries hclosed hq
  refine ⟨fun q hq => (hof q hq).1, hapart.imp_of_mem fun {p q} hp _ hdisjoint => ?_,
    fun q hq => (hof q hq).2.asks, hapart.imp_of_mem fun {p q} hp hq hdisjoint f hfp hfq => ?_,
    fun f => exists_mem_partQueries_iff hi hparts, fun q hq => (hof q hq).2.required,
    fun q hq => (hof q hq).2.eq, fun q hq => (hof q hq).2.conditioned⟩
  · obtain ⟨a, ha⟩ := (hof p hp).1.nonempty
    refine Bool.eq_false_iff.mpr fun hbeq => hdisjoint a ha ?_
    rwa [← JoinGraph.names_eq_of_beq hbeq]
  · have hcovers := (((hof p hp).2.select f).mp hfp).2.1
    exact hdisjoint f.entity hcovers (((hof q hq).2.select f).mp hfq).2.1

/-! ## Exactness -/

/-- **SUPPORT QUERIES FETCH EXACTLY WHAT IS MISSING**. -/
theorem supportQueries_exact {di : Index.Draft} (hu : build m d = .ok u)
    (hi : Index.build di = .ok i) (hclosed : i.graph.IsClosed) (hmodifies : u.modifies i = true) :
    (u.kind ≠ .insert →
      ((∀ f ∈ i.allFields, u.Gives i f) → u.supportQueries i = some [])
        ∧ ((¬ ∀ f ∈ i.allFields, u.Gives i f) →
          ∃ q, u.supportQueries i = some [q] ∧ u.IsSupportedBy i q))
    ∧ (u.kind = .insert →
      (u.supportQueries i = none ↔ ∃ part, u.IsCutOff i part)
        ∧ ∀ queries, u.supportQueries i = some queries → u.AreSupportOf i queries) := by
  have haccepted := isAccepted_of_build hu
  have hwell := (Index.build_eq_ok_iff.mp hi).2
  refine ⟨fun hkind => ?_, fun hkind => ?_⟩
  · rw [supportQueries_of_kind_ne hkind (haccepted.conditioned hkind), ← isEmpty_missing_iff]
    refine ⟨fun hall => if_pos hall, fun hsome => ⟨_, if_neg hsome, ?_⟩⟩
    exact isSupportedBy_supportQuery haccepted hwell hclosed hmodifies
  · exact ⟨supportQueries_eq_none_iff hclosed hkind,
      fun queries => areSupportOf_of_supportQueries hwell hclosed hkind⟩

/-! ### A new tweet, for the tweets of a city -/

open Planner

def tweetModel : Model := userModel.add tweetEntity

def tweetInsertDraft : Draft Rat where
  kind := .insert
  entity := "tweet"
  path := []
  settings := []
  eq := []
  weight := 1
  text := some "new tweet"

/-- A tweet with all its fields; its user is pointed to. -/
def tweetInsert : Update Rat where
  text := "new tweet"
  kind := .insert
  entity := tweetEntity
  settings := tweetEntity.fields
  eq := ∅
  graph := JoinGraph.single tweetEntity
  weight := 1

def cityTweetsDraft : Index.Draft where
  graph := userTweets
  partition := [userCity]
  ordered := [userId, tweetId]
  extra := [tweetTopic]
  aggregates := []
  groupBy := []

def cityTweetsIndex : Index where
  partition := SortedSet.ofList [userCity]
  ordered := [userId, tweetId]
  extra := SortedSet.ofList [tweetTopic]
  aggregates := ∅
  groupBy := ∅
  graph := userTweets

/-- The city of the user is fetched, by the identifier that the tweet points to. -/
theorem supportQueries_exact_tweet :
    build tweetModel tweetInsertDraft = .ok tweetInsert
      ∧ Index.build cityTweetsDraft = .ok cityTweetsIndex ∧ cityTweetsIndex.graph.IsClosed
      ∧ tweetInsert.modifies cityTweetsIndex = true
      ∧ ∃ queries, tweetInsert.supportQueries cityTweetsIndex = some queries
        ∧ queries.map (·.select.toList) = [[userCity]]
        ∧ queries.map (·.eq.toList) = [[userId]]
        ∧ tweetInsert.AreSupportOf cityTweetsIndex queries := by
  have hu : build tweetModel tweetInsertDraft = .ok tweetInsert := rfl
  have hi : Index.build cityTweetsDraft = .ok cityTweetsIndex := rfl
  have hclosed : cityTweetsIndex.graph.IsClosed := by decide +kernel
  have hmodifies : tweetInsert.modifies cityTweetsIndex = true := by decide +kernel
  have hfields : (tweetInsert.supportQueries cityTweetsIndex).map
      (·.map fun q => (q.select.toList, q.eq.toList)) = some [([userCity], [userId])] := by
    decide +kernel
  obtain ⟨queries, hqueries, hpairs⟩ := Option.map_eq_some_iff.mp hfields
  have hfst := congrArg (List.map Prod.fst) hpairs
  have hsnd := congrArg (List.map Prod.snd) hpairs
  rw [List.map_map] at hfst hsnd
  exact ⟨hu, hi, hclosed, hmodifies, queries, hqueries, hfst, hsnd,
    ((supportQueries_exact hu hi hclosed hmodifies).2 rfl).2 queries hqueries⟩

/-! ## Keys of inserted rows -/

/-- The statement gives the field a value, or one of the queries fetches it. -/
def IsKnown (u : Update α) (i : Index) (queries : List (Query α)) (f : Field) : Prop :=
  u.Gives i f ∨ ∃ q ∈ queries, f ∈ q.select

/-- **AN INSERT HAS TO GIVE ITS OWN KEY**: with the queries of an insert, the key of a row is
    known exactly where the insert gives the key fields of its own entity.  In particular there
    are no queries where only fields of that entity are missing. -/
theorem keyFields_known_iff {di : Index.Draft} (hi : Index.build di = .ok i)
    (hkind : u.kind = .insert) {queries : List (Query α)} (h : u.supportQueries i = some queries) :
    ((∀ f ∈ i.keyFields, u.IsKnown i queries f)
        ↔ ∀ f ∈ i.keyFields, f.entity = u.entity.name → u.Gives i f)
      ∧ (queries = [] ↔ ∀ f ∈ i.allFields, f.entity ≠ u.entity.name → u.Gives i f) := by
  obtain ⟨rfl, hparts⟩ := eq_partQueries_of_supportQueries hkind h
  have htogether : ∀ f, (∃ q ∈ u.partQueries i, f ∈ q.select)
      ↔ f ∈ i.allFields ∧ f.entity ≠ u.entity.name ∧ ¬ u.Gives i f := fun f =>
    exists_mem_partQueries_iff (Index.build_eq_ok_iff.mp hi).2 hparts
  refine ⟨⟨fun hknown f hf hentity => ?_, fun hown f hf => ?_⟩, ⟨fun hnone f hf hentity => ?_,
    fun hgives => ?_⟩⟩
  · rcases hknown f hf with hgives | hselected
    · exact hgives
    · exact absurd hentity ((htogether f).mp hselected).2.1
  · by_cases hgives : u.Gives i f
    · exact .inl hgives
    · refine .inr ((htogether f).mpr ⟨Index.mem_allFields_of_mem_keyFields hf, ?_, hgives⟩)
      exact fun hentity => hgives (hown f hf hentity)
  · by_contra hgives
    obtain ⟨q, hq, -⟩ := (htogether f).mpr ⟨hf, hentity, hgives⟩
    rw [hnone] at hq
    exact nomatch hq
  · refine List.eq_nil_iff_forall_not_mem.mpr fun q hq => ?_
    obtain ⟨part, -, hjoin⟩ := List.mem_filterMap.mp hq
    obtain ⟨f, hf⟩ := (isPartQuery_of_partQuery hjoin).asks
    obtain ⟨hfield, hentity, hnot⟩ := (htogether f).mp ⟨q, hq, hf⟩
    exact hnot (hgives f hfield hentity)

/-- The new tweet gives its own identifier, and the query fetches the city. -/
theorem keyFields_known_iff_tweet :
    Index.build cityTweetsDraft = .ok cityTweetsIndex ∧ tweetInsert.kind = .insert
      ∧ ∃ queries, tweetInsert.supportQueries cityTweetsIndex = some queries
        ∧ ∀ f ∈ cityTweetsIndex.keyFields, tweetInsert.IsKnown cityTweetsIndex queries f := by
  have hi : Index.build cityTweetsDraft = .ok cityTweetsIndex := rfl
  have hsome : (tweetInsert.supportQueries cityTweetsIndex).isSome = true := by decide +kernel
  obtain ⟨queries, hqueries⟩ := Option.isSome_iff_exists.mp hsome
  refine ⟨hi, rfl, queries, hqueries, (keyFields_known_iff hi rfl hqueries).1.mpr ?_⟩
  intro f hf hentity
  have hgiven : ∀ g ∈ cityTweetsIndex.keyFields.toList, g.entity = tweetInsert.entity.name →
      g ∈ tweetInsert.settings := by decide +kernel
  obtain ⟨g, hg, hkey⟩ := SortedSet.mem_iff.mp hf
  have hsame : g.entity = f.entity := (List.cons.inj hkey).1
  exact .inl ((SortedSet.mem_congr hkey).mp (hgiven g hg (hsame.trans hentity)))

def topicInsertDraft : Draft Rat where
  kind := .insert
  entity := "tweet"
  path := []
  settings := ["tweet.topic"]
  eq := []
  weight := 1
  text := some "new topic"

/-- A tweet of which only the topic is written. -/
def topicInsert : Update Rat where
  text := "new topic"
  kind := .insert
  entity := tweetEntity
  settings := SortedSet.ofList [tweetTopic]
  eq := ∅
  graph := JoinGraph.single tweetEntity
  weight := 1

def topicsDraft : Index.Draft where
  graph := JoinGraph.single tweetEntity
  partition := [tweetId]
  ordered := []
  extra := [tweetTopic]
  aggregates := []
  groupBy := []

def topicsIndex : Index where
  partition := SortedSet.ofList [tweetId]
  ordered := []
  extra := SortedSet.ofList [tweetTopic]
  aggregates := ∅
  groupBy := ∅
  graph := JoinGraph.single tweetEntity

/-- An insert that leaves out the identifier asks for nothing, and the partition of the index that
    it modifies has no value. -/
theorem topicInsert_key_unknown :
    build tweetModel topicInsertDraft = .ok topicInsert ∧ topicInsert.kind = .insert
      ∧ Index.build topicsDraft = .ok topicsIndex
      ∧ topicInsert.modifies topicsIndex = true
      ∧ topicInsert.supportQueries topicsIndex = some []
      ∧ tweetId ∈ topicsIndex.partition
      ∧ ¬ topicInsert.IsKnown topicsIndex [] tweetId := by
  refine ⟨rfl, rfl, rfl, by decide +kernel, rfl, by decide +kernel, ?_⟩
  have hgives : ¬ topicInsert.Gives topicsIndex tweetId := by decide +kernel
  exact fun hknown => hknown.elim hgives fun ⟨_, hq, _⟩ => nomatch hq

end IndexDesign.Update
