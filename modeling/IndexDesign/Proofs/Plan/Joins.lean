import IndexDesign.Proofs.Graph.JoinOrder
import IndexDesign.Proofs.Graph.Path
import IndexDesign.Proofs.Graph.Union
import IndexDesign.Proofs.Index.Build
import IndexDesign.Proofs.Plan.Aggregation

/-! # No join is lost

    A lookup drops the entities that its index covers from what is left to
    visit, all but the last, and with them every edge that has a dropped end.
    On a tree that branches this can lose an edge which no index has carried.

    Such a loss is never made good.  The edge was the only way from the part
    that has been looked up to its other end, so from then on that end is left
    to visit and cannot be reached from where the branch stands.  Lookups stay
    within reach, and nothing is settled while two entities are left.  So a run
    either carries every join, or keeps an entity out of reach and does not
    end. -/

namespace IndexDesign

variable {α : Type}

/-- The indexes carry the joins of the query and no others. -/
structure CarriesJoins (q : Query α) (indexes : List Index) : Prop where
  /-- The union of their graphs is the graph of the query. -/
  union : (JoinGraph.unionAll (indexes.map (·.graph)) == q.graph) = true
  entities : ∀ v ∈ q.graph.names, ∃ i ∈ indexes, v ∈ i.graph.names
  edges : ∀ e ∈ q.graph.edges, ∃ i ∈ indexes, e ∈ i.graph.edges
  noMore : ∀ i ∈ indexes, ∀ e ∈ i.graph.edges, e ∈ q.graph.edges

/-- The indexes that steps look up. -/
def lookedUpBy (steps : List (Step α)) : List Index := steps.filterMap (·.lookedUp?)

/-! ## What is left to visit -/

/-- The indexes have carried whatever is not left to visit. -/
structure IsWhole (q : Query α) (indexes : List Index) (graph : JoinGraph) (joins : List String) :
    Prop where
  names : ∀ v ∈ q.graph.names, v ∈ joins ∨ ∃ i ∈ indexes, v ∈ i.graph.names
  edges : ∀ e ∈ q.graph.edges, e ∈ graph.edges ∨ ∃ i ∈ indexes, e ∈ i.graph.edges
  joins : ∀ v ∈ graph.names, v ∈ joins

/-- An entity that is left to visit cannot be reached from the first. -/
def IsCut (graph : JoinGraph) (joins : List String) : Prop :=
  ∃ w ∈ graph.names, ∀ head rest, joins = head :: rest →
    w ∈ rest ∧ ¬ graph.adjacency.Reachable head w

/-- What every lookup keeps of the query's graph: `graph` and `joins` are left to visit after
    lookups of the indexes. -/
structure KeepsJoins (q : Query α) (indexes : List Index) (graph : JoinGraph)
    (joins : List String) : Prop where
  nodup : joins.Nodup
  within : ∀ v ∈ joins, v ∈ graph.names
  closed : graph.IsClosed
  names : ∀ v ∈ graph.names, v ∈ q.graph.names
  edges : graph.EdgesWithin q.graph
  carried : ∀ i ∈ indexes, i.graph.EdgesWithin q.graph ∧ ∀ v ∈ i.graph.names, v ∈ q.graph.names
  whole : IsWhole q indexes graph joins ∨ IsCut graph joins

variable {q : Query α} {indexes : List Index} {graph : JoinGraph}
  {joins interior rest : List String} {last : String} {index : Index}

/-- What is kept does not depend on the order of the indexes. -/
theorem KeepsJoins.congr {others : List Index} (h : KeepsJoins q indexes graph joins)
    (hmem : ∀ i, i ∈ indexes ↔ i ∈ others) : KeepsJoins q others graph joins := by
  have hfound : ∀ {holds : Index → Prop}, (∃ i ∈ indexes, holds i) → ∃ i ∈ others, holds i := by
    rintro holds ⟨i, hi, hholds⟩
    exact ⟨i, (hmem i).mp hi, hholds⟩
  refine ⟨h.nodup, h.within, h.closed, h.names, h.edges,
    fun i hi => h.carried i ((hmem i).mpr hi), ?_⟩
  rcases h.whole with hwhole | hcut
  · exact .inl ⟨fun v hv => (hwhole.names v hv).imp_right hfound,
      fun e he => (hwhole.edges e he).imp_right hfound, hwhole.joins⟩
  · exact .inr hcut

theorem keepsJoins_start (htree : q.graph.IsTree) : KeepsJoins q [] q.graph q.joinOrder := by
  obtain ⟨hnodup, hwithin⟩ := JoinGraph.joinOrder_sound htree.closed.keepsWalks q.eq
  refine ⟨hnodup, hwithin, htree.closed, fun _ hv => hv, fun _ he => he, fun i hi => (nomatch hi),
    ?_⟩
  by_cases hne : q.joinOrder = []
  · by_cases hempty : q.graph.names = []
    · refine .inl ⟨?_, fun _ he => .inl he, ?_⟩
      · rw [hempty]
        exact fun v hv => nomatch hv
      · rw [hempty]
        exact fun v hv => nomatch hv
    -- a graph without a join order is never visited
    · obtain ⟨w, hw⟩ := List.exists_mem_of_ne_nil _ hempty
      refine .inr ⟨w, hw, fun head rest hjoins => ?_⟩
      rw [hne] at hjoins
      exact nomatch hjoins
  · have hall : ∀ v ∈ q.graph.names, v ∈ q.joinOrder :=
      fun v hv => (JoinGraph.mem_joinOrder_iff htree.isJoined hne).mpr hv
    exact .inl ⟨fun v hv => .inl (hall v hv), fun _ he => .inl he, hall⟩

/-- Nothing is lost when the last entity is settled, if an index has carried it. -/
theorem keepsJoins_settled (htree : q.graph.IsTree) (h : KeepsJoins q indexes graph [last])
    (hlast : ∃ i ∈ indexes, last ∈ i.graph.names) : KeepsJoins q indexes ∅ [] := by
  refine ⟨.nil, fun v hv => (nomatch hv), JoinGraph.isClosed_empty, fun v hv => (nomatch hv),
    fun e he => absurd he SortedSet.not_mem_empty, h.carried, .inl ?_⟩
  rcases h.whole with hwhole | ⟨w, -, hcut⟩
  · refine ⟨fun v hv => ?_, fun e he => ?_, fun v hv => nomatch hv⟩
    · rcases hwhole.names v hv with hmem | hcarried
      · rw [List.mem_singleton.mp hmem]
        exact .inr hlast
      · exact .inr hcarried
    · rcases hwhole.edges e he with hleft | hcarried
      -- an edge that is left would join the last entity to itself
      · obtain ⟨hsource, htarget⟩ := h.closed.mem_names_of_joins hleft (.inl ⟨rfl, rfl⟩)
        have hs := List.mem_singleton.mp (hwhole.joins _ hsource)
        have ht := List.mem_singleton.mp (hwhole.joins _ htarget)
        exact absurd (hs.trans ht.symm) (htree.loopless e he)
      · exact .inr hcarried
  · exact nomatch (hcut last [] rfl).1

/-! ## Lookups -/

/-- The index covers the next entities, `interior` and the last, along edges that are left. -/
structure Covers (index : Index) (graph : JoinGraph) (interior : List String) (last : String) :
    Prop where
  edges : index.graph.EdgesWithin graph
  mem_iff : ∀ v, v ∈ index.graph.names ↔ v ∈ interior ∨ v = last

theorem mem_joins_iff {v : String} : v ∈ interior ++ last :: rest
    ↔ (v ∈ interior ∨ v = last) ∨ v ∈ rest := by
  rw [List.mem_append, List.mem_cons, or_assoc]

/-- What lies behind the covered entities is not covered. -/
theorem not_covered_of_mem_rest (hnodup : (interior ++ last :: rest).Nodup) {v : String}
    (hv : v ∈ rest) : ¬ (v ∈ interior ∨ v = last) := by
  obtain ⟨-, hrest, hdisjoint⟩ := List.nodup_append.mp hnodup
  rintro (hmem | rfl)
  · exact hdisjoint v hmem v (List.mem_cons_of_mem _ hv) rfl
  · exact (List.nodup_cons.mp hrest).1 hv

/-- From where an entity is out of reach, it is so after a lookup. -/
theorem isCut_of_isCut (hnodup : (interior ++ last :: rest).Nodup)
    (hwithin : ∀ v ∈ interior ++ last :: rest, v ∈ graph.names)
    (hjoined : index.graph.IsJoined) (hcovers : Covers index graph interior last)
    (hcut : IsCut graph (interior ++ last :: rest)) :
    IsCut (graph.without interior) (last :: rest) := by
  obtain ⟨w, hw, hcut⟩ := hcut
  obtain ⟨head, tail, hjoins⟩ := List.exists_cons_of_ne_nil
    (List.append_ne_nil_of_right_ne_nil interior (List.cons_ne_nil last rest))
  obtain ⟨hmem, hunreachable⟩ := hcut head tail hjoins
  have hhead : head ∈ interior ∨ head = last := by
    cases interior with
    | nil => exact .inr (List.cons.inj hjoins).1.symm
    | cons first interior =>
        rw [← (List.cons.inj hjoins).1]
        exact .inl List.mem_cons_self
  -- the index reaches from the first entity to all that it covers
  have hreach : ∀ v, v ∈ interior ∨ v = last → graph.adjacency.Reachable head v := by
    intro v hv
    exact (hjoined.joined head ((hcovers.mem_iff head).mpr hhead) v
      ((hcovers.mem_iff v).mpr hv)).mono (JoinGraph.adjacency_mono hcovers.edges)
  have hout : ¬ (w ∈ interior ∨ w = last) := fun hv => hunreachable (hreach w hv)
  have hrest : w ∈ rest := by
    have hall : w ∈ interior ++ last :: rest := by
      rw [hjoins]
      exact List.mem_cons_of_mem _ hmem
    exact (mem_joins_iff.mp hall).resolve_left hout
  refine ⟨w, JoinGraph.mem_names_without.mpr ⟨hw, fun hv => hout (.inl hv)⟩, ?_⟩
  intro head' rest' hjoins'
  obtain ⟨rfl, rfl⟩ := List.cons.inj hjoins'
  refine ⟨hrest, fun hreach' => hunreachable ?_⟩
  exact (hreach _ (.inr rfl)).trans
    (hreach'.mono (JoinGraph.adjacency_mono (JoinGraph.edgesWithin_without _ _)))

/-- An edge that is lost in a lookup leaves its other end out of reach. -/
theorem isCut_of_lost (htree : q.graph.IsTree) (hnodup : (interior ++ last :: rest).Nodup)
    (hjoined : index.graph.IsJoined) (hcovers : Covers index graph interior last)
    (hclosed : graph.IsClosed) (hedges : graph.EdgesWithin q.graph)
    {e : Edge} (he : e ∈ graph.edges) {a b : String} (hjoins : e.Joins a b)
    (ha : a ∈ interior) (hb : b ∈ rest) :
    IsCut (graph.without interior) (last :: rest) := by
  have hout := not_covered_of_mem_rest hnodup hb
  have hbmem := (hclosed.mem_names_of_joins he hjoins).2
  refine ⟨b, JoinGraph.mem_names_without.mpr ⟨hbmem, fun hv => hout (.inl hv)⟩, ?_⟩
  intro head' rest' hjoins'
  obtain ⟨rfl, rfl⟩ := List.cons.inj hjoins'
  refine ⟨hb, ?_⟩
  refine JoinGraph.not_reachable_of_isTree htree hjoined
    (fun f hf => hedges f (hcovers.edges f hf)) (hedges e he) hjoins
    ((hcovers.mem_iff a).mpr (.inl ha)) (fun hv => hout ((hcovers.mem_iff b).mp hv))
    (JoinGraph.isClosed_without graph interior)
    (fun f hf => hedges f (JoinGraph.edgesWithin_without _ _ f hf)) ?_
    ((hcovers.mem_iff _).mpr (.inr rfl))
  exact fun hv => (JoinGraph.mem_names_without.mp hv).2 ha

/-- Where no edge is lost in a lookup, the index has carried all that is dropped. -/
theorem isWhole_of_not_lost (htree : q.graph.IsTree) (hjoined : index.graph.IsJoined)
    (hcovers : Covers index graph interior last) (hclosed : graph.IsClosed)
    (hedges : graph.EdgesWithin q.graph)
    (hwhole : IsWhole q indexes graph (interior ++ last :: rest))
    (hkept : ∀ e ∈ graph.edges, ∀ a b, e.Joins a b → a ∈ interior → b ∉ rest) :
    IsWhole q (index :: indexes) (graph.without interior) (last :: rest) := by
  have hlater : ∀ {holds : Index → Prop}, (∃ i ∈ indexes, holds i) →
      ∃ i ∈ index :: indexes, holds i := by
    rintro holds ⟨i, hi, hholds⟩
    exact ⟨i, List.mem_cons_of_mem _ hi, hholds⟩
  -- an edge with a dropped end lies within the index
  have hcarried : ∀ e ∈ graph.edges, ∀ a b, e.Joins a b → a ∈ interior → e ∈ index.graph.edges := by
    intro e he a b hjoins ha
    have hb := mem_joins_iff.mp (hwhole.joins b (hclosed.mem_names_of_joins he hjoins).2)
    refine JoinGraph.mem_edges_of_isTree htree hjoined
      (fun f hf => hedges f (hcovers.edges f hf)) (hedges e he) hjoins
      ((hcovers.mem_iff a).mpr (.inl ha)) ((hcovers.mem_iff b).mpr ?_)
    exact hb.resolve_right (hkept e he a b hjoins ha)
  refine ⟨fun v hv => ?_, fun e he => ?_, fun v hv => ?_⟩
  · rcases hwhole.names v hv with hmem | hfound
    · rcases mem_joins_iff.mp hmem with (hmem | rfl) | hmem
      · exact .inr ⟨index, List.mem_cons_self, (hcovers.mem_iff v).mpr (.inl hmem)⟩
      · exact .inl List.mem_cons_self
      · exact .inl (List.mem_cons_of_mem _ hmem)
    · exact .inr (hlater hfound)
  · rcases hwhole.edges e he with hleft | hfound
    · by_cases hsource : e.source ∈ interior
      · exact .inr ⟨index, List.mem_cons_self, hcarried e hleft _ _ (.inl ⟨rfl, rfl⟩) hsource⟩
      · by_cases htarget : e.target ∈ interior
        · exact .inr ⟨index, List.mem_cons_self, hcarried e hleft _ _ (.inr ⟨rfl, rfl⟩) htarget⟩
        · exact .inl (hclosed.mem_edges_without.mpr ⟨hleft, hsource, htarget⟩)
    · exact .inr (hlater hfound)
  · obtain ⟨hmem, hout⟩ := JoinGraph.mem_names_without.mp hv
    rcases mem_joins_iff.mp (hwhole.joins v hmem) with (hin | rfl) | hrest
    · exact absurd hin hout
    · exact List.mem_cons_self
    · exact List.mem_cons_of_mem _ hrest

/-- **LOOKUPS KEEP JOINS**: a lookup keeps what the lookups before it have kept. -/
theorem keepsJoins_lookup (htree : q.graph.IsTree) (hjoined : index.graph.IsJoined)
    (h : KeepsJoins q indexes graph (interior ++ last :: rest))
    (hcovers : Covers index graph interior last) :
    KeepsJoins q (index :: indexes) (graph.without interior) (last :: rest) := by
  obtain ⟨-, hrestNodup, hdisjoint⟩ := List.nodup_append.mp h.nodup
  refine ⟨hrestNodup, fun v hv => ?_, JoinGraph.isClosed_without _ _, fun v hv => ?_,
    fun e he => ?_, fun i hi => ?_, ?_⟩
  · exact JoinGraph.mem_names_without.mpr ⟨h.within v (List.mem_append_right _ hv),
      fun hin => hdisjoint v hin v hv rfl⟩
  · exact h.names v (JoinGraph.mem_names_without.mp hv).1
  · exact h.edges e (JoinGraph.edgesWithin_without _ _ e he)
  · rcases List.mem_cons.mp hi with rfl | hi
    · refine ⟨fun e he => h.edges e (hcovers.edges e he), fun v hv => ?_⟩
      exact h.names v (h.within v (mem_joins_iff.mpr (.inl ((hcovers.mem_iff v).mp hv))))
    · exact h.carried i hi
  · rcases h.whole with hwhole | hcut
    · by_cases hlost : ∃ e ∈ graph.edges, ∃ a b, e.Joins a b ∧ a ∈ interior ∧ b ∈ rest
      · obtain ⟨e, he, a, b, hjoins, ha, hb⟩ := hlost
        exact .inr (isCut_of_lost htree h.nodup hjoined hcovers h.closed h.edges he hjoins ha hb)
      · refine .inl (isWhole_of_not_lost htree hjoined hcovers h.closed h.edges hwhole ?_)
        intro e he a b hjoins ha hb
        exact hlost ⟨e, he, a, b, hjoins, ha, hb⟩
    · exact .inr (isCut_of_isCut h.nodup h.within hjoined hcovers hcut)

/-! ## Steps -/

namespace PlanState

variable {s : PlanState α}

/-- The state is to visit what is given, or nothing where that was one entity. -/
def Settles (graph : JoinGraph) (joins : List String) (s : PlanState α) : Prop :=
  s.graph = graph ∧ s.joins = joins ∨ ∃ last, joins = [last] ∧ s.graph = ∅ ∧ s.joins = []

theorem settles_settleGraph (s : PlanState α) : s.settleGraph.Settles s.graph s.joins := by
  simp only [settleGraph]
  split
  · next last hjoins =>
    split
    · exact .inl ⟨rfl, rfl⟩
    · exact .inr ⟨last, hjoins, rfl, rfl⟩
  · exact .inl ⟨rfl, rfl⟩

theorem settles_afterLookup [Scalar α] (s : PlanState α) (index : Index) (covered : List String) :
    (s.afterLookup index covered).Settles (s.graph.without covered.dropLast)
      (s.joins.drop (covered.length - 1)) := by
  obtain ⟨rows, hrows⟩ := settleLimit_eq (s.narrowed index covered).settleGraph
  rw [afterLookup_eq_settle, hrows]
  exact settles_settleGraph (s.narrowed index covered)

/-- An index covers the next entities up to one where the branch then stands. -/
theorem exists_split_of_coverage {index : Index} {covered : List String}
    (h : s.coverage index = .ok covered) : ∃ interior last rest,
      covered = interior ++ [last] ∧ s.joins = interior ++ last :: rest := by
  obtain ⟨hhead, hsize, hcovered, -, -⟩ := coverage_eq_ok_iff.mp h
  have hne : covered ≠ [] := by
    obtain ⟨head, hjoins, hhead⟩ := Option.any_eq_true _ _ |>.mp hhead
    obtain ⟨e, he, -⟩ := List.mem_map.mp (JoinGraph.contains_iff.mp hhead)
    have hpositive := List.length_pos_of_mem he
    intro hnil
    rw [hcovered, List.take_eq_nil_iff] at hnil
    rcases hnil with hzero | hnil
    · rw [JoinGraph.size, SortedSet.size] at hzero
      omega
    · rw [hnil] at hjoins
      cases hjoins
  refine ⟨covered.dropLast, covered.getLast hne, s.joins.drop index.graph.size,
    (List.dropLast_append_getLast hne).symm, ?_⟩
  rw [List.append_cons, List.dropLast_append_getLast, hcovered, List.take_append_drop]

/-- The index covers the entities that come next. -/
theorem exists_covers (hnodup : s.joins.Nodup)
    {covered : List String} (h : s.coverage index = .ok covered) :
    ∃ interior last rest, covered = interior ++ [last] ∧ s.joins = interior ++ last :: rest
      ∧ Covers index s.graph interior last := by
  obtain ⟨interior, last, rest, hsplit, hjoins⟩ := exists_split_of_coverage h
  obtain ⟨-, hsize, hcovered, hall, hedges⟩ := coverage_eq_ok_iff.mp h
  have hlength : covered.length = index.graph.names.length := by
    rw [hcovered, List.length_take, Nat.min_eq_left hsize, JoinGraph.length_names]
  have hcoveredNodup : covered.Nodup := by
    rw [hcovered]
    exact hnodup.sublist (List.take_sublist _ _)
  -- as many entities as the index has, all of them in it, are its entities
  have hperm : covered.Perm index.graph.names :=
    (List.subperm_of_subset hcoveredNodup fun v hv =>
      JoinGraph.contains_iff.mp (hall v hv)).perm_of_length_le hlength.ge
  refine ⟨interior, last, rest, hsplit, hjoins, hedges, fun v => ?_⟩
  rw [← hperm.mem_iff, hsplit, List.mem_append, List.mem_singleton]

end PlanState

namespace Planner

variable [Scalar α] {p : Planner α} {path : List (Step α)} {t next : Transition α}

/-- A filter needs something that is fetched. -/
theorem settles_of_filter (h : Transition.filter p.costs t.state = .ok next) :
    t.state.fetched.isEmpty = false ∧ next.state.Settles t.state.graph t.state.joins
      ∧ next.state.fetched = t.state.fetched := by
  have hmemory := Transition.isInMemory_filter h
  refine ⟨Bool.eq_false_iff.mpr fun hempty => ?_, ?_, hmemory.fetched⟩
  · have hnone : ∀ f, t.state.isReachable f = false := by
      intro f
      have hnil : t.state.fetched.toList = [] := List.isEmpty_iff.mp hempty
      have hcontains : t.state.fetched.contains f = false := by
        rw [SortedSet.contains, hnil]
        rfl
      rw [PlanState.isReachable, hcontains, hnil, List.any_nil, Bool.and_false, Bool.or_false]
    refine (Transition.filter_spec h).2.1 ((Bool.and_eq_true _ _).mpr ⟨?_, ?_⟩)
    · simp [SortedSet.filter, SortedSet.isEmpty, hnone]
    · simp [SortedSet.filter, SortedSet.isEmpty, hnone]
  · obtain ⟨rows, hstate⟩ := Transition.state_of_filter h
    rw [hstate]
    exact PlanState.settles_settleGraph _

/-- What is left to visit is settled by filters and lookups only. -/
theorem settles_of_inMemory (h : p.Follows path t next) (hmemory : next.step.lookedUp? = none) :
    next.state.fetched = t.state.fetched
      ∧ (next.state.graph = t.state.graph ∧ next.state.joins = t.state.joins
        ∨ t.state.fetched.isEmpty = false ∧ next.state.Settles t.state.graph t.state.joins) := by
  cases h with
  | filter h =>
      obtain ⟨hfetched, hsettles, hsame⟩ := settles_of_filter h
      exact ⟨hsame, .inr ⟨hfetched, hsettles⟩⟩
  | sort h =>
      obtain ⟨-, -, -, -, -, hstate⟩ := Transition.sort_spec h
      rw [hstate]
      exact ⟨rfl, .inl ⟨rfl, rfl⟩⟩
  | limit h =>
      obtain ⟨-, limit, -, -, -, -, hstate⟩ := Transition.limit_spec h
      rw [hstate]
      exact ⟨rfl, .inl ⟨rfl, rfl⟩⟩
  | aggregate h =>
      obtain ⟨-, -, -, -, rows, hstate⟩ := Transition.aggregate_spec h
      rw [hstate]
      exact ⟨rfl, .inl ⟨rfl, rfl⟩⟩
  | lookup index _ _ _ h =>
      obtain ⟨covered, hlookup⟩ := Transition.lookup_spec h
      rw [hlookup.lookedUp] at hmemory
      exact nomatch hmemory

/-- What a branch keeps of the query's graph; where it has fetched something, an index has
    carried the entity at which it stands. -/
def Keeps (q : Query α) (path : List (Step α)) (t : Transition α) : Prop :=
  KeepsJoins q (lookedUpBy path) t.state.graph t.state.joins
    ∧ (t.state.fetched.isEmpty = true ∨ ∀ head, t.state.joins.head? = some head →
        ∃ i ∈ lookedUpBy path, head ∈ i.graph.names)

omit [Scalar α] in
/-- What is kept stays so when the graph is settled. -/
theorem keepsJoins_of_settles (htree : q.graph.IsTree) {s : PlanState α}
    (h : KeepsJoins q indexes graph joins)
    (hhead : ∀ head, joins.head? = some head → ∃ i ∈ indexes, head ∈ i.graph.names)
    (hsettles : s.Settles graph joins) : KeepsJoins q indexes s.graph s.joins
      ∧ ∀ head, s.joins.head? = some head → ∃ i ∈ indexes, head ∈ i.graph.names := by
  rcases hsettles with ⟨hgraph, hjoins⟩ | ⟨last, rfl, hgraph, hjoins⟩
  · rw [hgraph, hjoins]
    exact ⟨h, hhead⟩
  · rw [hgraph, hjoins]
    exact ⟨keepsJoins_settled htree h (hhead last rfl), fun head hnone => nomatch hnone⟩

/-- **STEPS KEEP JOINS**. -/
theorem keeps_of_follows (htree : q.graph.IsTree) (hpool : ∀ i ∈ p.pool, i.graph.IsJoined)
    (ht : Keeps q path t) (h : p.Follows path t next) : Keeps q (next.step :: path) next := by
  obtain ⟨hkeeps, hhead⟩ := ht
  rcases isInMemory_or_isLookup h with hmemory | ⟨index, hindex, covered, hlookup⟩
  · have hsteps : lookedUpBy (next.step :: path) = lookedUpBy path :=
      List.filterMap_cons_none hmemory.lookedUp
    obtain ⟨hfetched, hsame | ⟨hsome, hsettles⟩⟩ := settles_of_inMemory h hmemory.lookedUp
    · rw [Keeps, hsteps, hfetched, hsame.1, hsame.2]
      exact ⟨hkeeps, hhead⟩
    · rw [Keeps, hsteps]
      have hcarried := hhead.resolve_left (Bool.eq_false_iff.mp hsome)
      obtain ⟨hkept, hnext⟩ := keepsJoins_of_settles htree hkeeps hcarried hsettles
      exact ⟨hkept, .inr hnext⟩
  · have hsteps : lookedUpBy (next.step :: path) = index :: lookedUpBy path :=
      List.filterMap_cons_some hlookup.lookedUp
    obtain ⟨interior, last, rest, rfl, hjoins, hcovers⟩ :=
      PlanState.exists_covers hkeeps.nodup hlookup.coverage
    have hsettles := t.state.settles_afterLookup index (interior ++ [last])
    rw [← hlookup.state, List.dropLast_concat, hjoins, List.length_append, List.length_singleton,
      Nat.add_sub_cancel, List.drop_left] at hsettles
    rw [hjoins] at hkeeps
    rw [Keeps, hsteps]
    obtain ⟨hkept, hnext⟩ := keepsJoins_of_settles htree
      (keepsJoins_lookup htree (hpool index hindex) hkeeps hcovers)
      (fun head hfirst => ⟨index, List.mem_cons_self,
        (hcovers.mem_iff head).mpr (.inr (Option.some.inj hfirst).symm)⟩) hsettles
    exact ⟨hkept, .inr hnext⟩

/-! ## Plans -/

omit [Scalar α] in
/-- At the end nothing is left to visit, so the indexes have carried everything. -/
theorem carriesJoins_of_keepsJoins (h : KeepsJoins q indexes graph [])
    (hgraph : graph.isEmpty = true) : CarriesJoins q indexes := by
  have hnone : ∀ v, v ∉ graph.names := by
    intro v hv
    obtain ⟨e, he, -⟩ := List.mem_map.mp hv
    exact SortedSet.isEmpty_iff.mp hgraph e (SortedSet.mem_of_mem_toList he)
  rcases h.whole with hwhole | ⟨w, hw, -⟩
  · have hnames : ∀ v ∈ q.graph.names, ∃ i ∈ indexes, v ∈ i.graph.names :=
      fun v hv => (hwhole.names v hv).resolve_left List.not_mem_nil
    have hedges : ∀ e ∈ q.graph.edges, ∃ i ∈ indexes, e ∈ i.graph.edges := by
      intro e he
      refine (hwhole.edges e he).resolve_left fun hleft => ?_
      exact hnone _ (h.closed.mem_names_of_joins hleft (.inl ⟨rfl, rfl⟩)).1
    refine ⟨JoinGraph.beq_of_mem_iff (fun v => ?_) (fun e => ?_), hnames, hedges,
      fun i hi e he => (h.carried i hi).1 e he⟩
    · rw [JoinGraph.mem_names_unionAll]
      simp only [List.mem_map, exists_exists_and_eq_and]
      exact ⟨fun ⟨i, hi, hv⟩ => (h.carried i hi).2 v hv, hnames v⟩
    · rw [JoinGraph.mem_edges_unionAll]
      simp only [List.mem_map, exists_exists_and_eq_and]
      exact ⟨fun ⟨i, hi, he⟩ => (h.carried i hi).1 e he, hedges e⟩
  · exact absurd hw (hnone w)

theorem graph_isEmpty_of_isAnswered {s : PlanState α} (h : s.isAnswered = true) :
    s.graph.isEmpty = true := by
  simp only [PlanState.isAnswered, PlanState.isAnsweredFor, Bool.and_eq_true] at h
  exact h.1.1.1.2

theorem carriesJoins_of_isRunOf (htree : q.graph.IsTree) (hpool : ∀ i ∈ p.pool, i.graph.IsJoined)
    {run : List (Transition α)} (h : p.IsRunOf q run) :
    CarriesJoins q (lookedUpBy (run.map (·.step))) := by
  have hstart : Keeps q [] (Transition.start q) :=
    ⟨keepsJoins_start htree, .inl rfl⟩
  obtain ⟨hkeeps, -⟩ := holds_of_isRun (Keeps q) (keeps_of_follows htree hpool) run [] _
    hstart h
  have hanswered := isAnswered_of_isRun run _ _ h
  have hjoins := (PlanState.isDone_of_isAnsweredFor hanswered).joins
  rw [hjoins] at hkeeps
  refine carriesJoins_of_keepsJoins (hkeeps.congr fun i => ?_)
    (graph_isEmpty_of_isAnswered hanswered)
  -- the branch lists its steps with the latest first
  rw [lookedUpBy, List.append_nil, List.filterMap_reverse, List.mem_reverse, lookedUpBy]

/-- **NO JOIN IS LOST**: with candidates that are built over their own entities, the indexes that a
    plan of a tree-shaped query looks up carry the entities and the joins of the query, and no
    others. -/
theorem plan_joins [Rendered α] {indexes : List Index}
    (hbuilt : ∀ i ∈ indexes, ∃ d, Index.build d = .ok i)
    (hclosed : ∀ i ∈ indexes, i.graph.IsClosed)
    (costs : CostModel α) (config : PlanningConfig α) (htree : q.graph.IsTree) {tree : PlanTree α}
    (h : (ofIndexes indexes costs config).plan q = .ok tree) :
    ∀ plan ∈ tree.plans, CarriesJoins q (lookedUpBy plan.steps) := by
  intro plan hplan
  obtain ⟨run, -, rfl, hisRun⟩ := exists_run_of_mem_plans h hplan
  refine carriesJoins_of_isRunOf htree (fun i hi => ?_) hisRun
  have hmem := Index.mem_of_mem_pool hi
  obtain ⟨d, hd⟩ := hbuilt i hmem
  exact (hclosed i hmem).isJoined (Index.build_eq_ok_iff.mp hd).2.connected

/-! ## The topics of a city

    The users of a city come from one index, and another finds the messages of
    a user.  The first carries one entity, the second the join. -/

def cityUsersDraft : Index.Draft where
  graph := JoinGraph.single userEntity
  partition := [userCity]
  ordered := [userId]
  extra := []
  aggregates := []
  groupBy := []

/-- Users by their city. -/
def cityUsersIndex : Index where
  partition := SortedSet.ofList [userCity]
  ordered := [userId]
  extra := ∅
  aggregates := ∅
  groupBy := ∅
  graph := JoinGraph.single userEntity

def messagesDraft : Index.Draft where
  graph := userTweets
  partition := [userId]
  ordered := [tweetId]
  extra := [tweetTopic]
  aggregates := []
  groupBy := []

/-- The messages of a user. -/
def messagesIndex : Index where
  partition := SortedSet.ofList [userId]
  ordered := [tweetId]
  extra := SortedSet.ofList [tweetTopic]
  aggregates := ∅
  groupBy := ∅
  graph := userTweets

def cityTopicsQuery : Query Rat where
  text := "topics of a city"
  select := SortedSet.ofList [tweetTopic]
  eq := SortedSet.ofList [userCity]
  range := ∅
  orderBy := []
  groupBy := ∅
  aggregates := ∅
  limit := none
  graph := userTweets
  weight := 3
  handle := 0

/-- Both indexes together carry the joins of the query. -/
theorem plan_joins_topics :
    (∀ i ∈ [cityUsersIndex, messagesIndex], ∃ d, Index.build d = .ok i)
      ∧ (∀ i ∈ [cityUsersIndex, messagesIndex], i.graph.IsClosed)
      ∧ cityTopicsQuery.graph.IsTree
      ∧ ∃ tree, (ofIndexes [cityUsersIndex, messagesIndex] .requestCount {}).plan cityTopicsQuery
          = .ok tree
        ∧ ∃ plan ∈ tree.plans, (lookedUpBy plan.steps).length = 2
          ∧ CarriesJoins cityTopicsQuery (lookedUpBy plan.steps) := by
  have hbuilt : ∀ i ∈ [cityUsersIndex, messagesIndex], ∃ d, Index.build d = .ok i := by
    intro i hi
    rcases List.mem_cons.mp hi with rfl | hi
    · exact ⟨cityUsersDraft, rfl⟩
    · rw [List.mem_singleton.mp hi]
      exact ⟨messagesDraft, rfl⟩
  have hclosed : ∀ i ∈ [cityUsersIndex, messagesIndex], i.graph.IsClosed := by decide +kernel
  have hpath : JoinGraph.ofPath (userModel.add tweetEntity) ["user", "tweet"]
      = .ok cityTopicsQuery.graph := rfl
  have htree := JoinGraph.isTree_ofPath (by decide) hpath
  have hplanned : ((ofIndexes [cityUsersIndex, messagesIndex]
      (.requestCount : CostModel Rat) {}).plan cityTopicsQuery).toOption.any
        (·.plans.any fun plan => (lookedUpBy plan.steps).length == 2) = true := by decide +kernel
  obtain ⟨tree, hok, hplans⟩ := Option.any_eq_true _ _ |>.mp hplanned
  obtain ⟨plan, hplan, htwo⟩ := List.any_eq_true.mp hplans
  have hok := toOption_eq_some_iff.mp hok
  exact ⟨hbuilt, hclosed, htree, tree, hok, plan, hplan, eq_of_beq htwo,
    plan_joins hbuilt hclosed .requestCount {} htree hok plan hplan⟩

end Planner

end IndexDesign
