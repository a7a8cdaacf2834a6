import IndexDesign.Proofs.Plan.AggregatingView
import IndexDesign.Proofs.Plan.Estimates
import IndexDesign.Proofs.Plan.InMemory
import IndexDesign.Proofs.Plan.Pending

/-! # No dead ends once the joins are exhausted

    A branch that has nothing left to visit and has not aggregated can always be
    wound up in memory.  Its conditions are on fields that are at hand, and what
    is grouped and aggregated has been fetched.

    The order is the delicate part.  A lookup lets a field of the order pass that
    is merely reachable, as an identifier that a fetched foreign key holds, while
    a sort asks for it to be fetched.  But an index has the identifiers of all its
    entities, so by the time nothing is left to visit the branch has fetched those
    of all entities of the query; and where an entity has one field of the
    identifier type, that is the field of the order.

    A limit of at least one row is kept by grouping, which leaves one row where
    there are no groups. -/

namespace IndexDesign

variable {α : Type}

/-! ## Entities that have been visited -/

/-- The identifier of every entity of the query has been fetched, or the entity is left to visit
    behind the one where the branch stands, or nothing has been fetched yet. -/
def PlanState.HasVisited (q : Query α) (s : PlanState α) : Prop :=
  ∀ e ∈ q.graph.entities.toList, e.id ∈ s.fetched ∨ e.name ∈ s.joins.tail
    ∨ s.fetched.isEmpty = true ∧ e.name ∈ s.joins

namespace Planner

variable [Scalar α] {m : Model} {p : Planner α} {q : Query α} {path : List (Step α)}
  {t next : Transition α}

theorem hasVisited_start (hjoins : q.joinOrder.Perm q.graph.names) :
    (PlanState.start q).HasVisited q := fun _ he =>
  .inr (.inr ⟨rfl, hjoins.mem_iff.mpr (List.mem_map_of_mem he)⟩)

omit [Scalar α] in
/-- Settling leaves what comes behind the first entity. -/
theorem mem_tail_of_settles {s : PlanState α} {graph : JoinGraph} {joins : List String} {v : String}
    (hsettles : s.Settles graph joins) (hv : v ∈ joins.tail) : v ∈ s.joins.tail := by
  rcases hsettles with ⟨-, hjoins⟩ | ⟨last, rfl, -, -⟩
  · rwa [hjoins]
  · exact nomatch hv

/-- An index brings the identifiers of the entities that it covers. -/
theorem hasVisited_lookup {index : Index} {covered : List String} {context : LookupContext}
    (hwell : index.IsWellFormed)
    (hindex : ∀ e ∈ index.graph.entities.toList, e ∈ m.entities.toList)
    (hq : ∀ e ∈ q.graph.entities.toList, e ∈ m.entities.toList) (hnodup : t.state.joins.Nodup)
    (ht : t.state.HasVisited q)
    (h : Transition.IsLookup p.costs t.state context index covered next) :
    next.state.HasVisited q := by
  obtain ⟨interior, last, rest, rfl, hjoins, hcovers⟩ :=
    PlanState.exists_covers hnodup h.coverage
  have hsettles := t.state.settles_afterLookup index (interior ++ [last])
  rw [← h.state, List.dropLast_concat, hjoins, List.length_append, List.length_singleton,
    Nat.add_sub_cancel, List.drop_left] at hsettles
  obtain ⟨graph, joins, rows, lookups, hafter⟩ :=
    t.state.afterLookup_eq index (interior ++ [last])
  have hfetched : next.state.fetched = t.state.fetched.union index.allFields := by
    rw [h.state, hafter]
  intro e he
  have hleft : e.name ∈ t.state.joins →
      e.id ∈ next.state.fetched ∨ e.name ∈ next.state.joins.tail := by
    intro hmem
    rw [hjoins] at hmem
    rcases mem_joins_iff.mp hmem with hcovered | hrest
    · obtain ⟨e', he', hname⟩ := List.mem_map.mp ((hcovers.mem_iff e.name).mpr hcovered)
      -- the index and the query mean the same entity
      have hsame : e' = e :=
        SortedSet.eq_of_key_eq (hindex e' he') (hq e he) (congrArg (fun v => [v]) hname)
      rw [hfetched, ← hsame]
      exact .inl (SortedSet.mem_union.mpr (.inr (hwell.mem_allFields_id he')))
    · exact .inr (mem_tail_of_settles hsettles hrest)
  rcases ht e he with hbefore | htail | ⟨-, hmem⟩
  · rw [hfetched]
    exact .inl (SortedSet.mem_union.mpr (.inl hbefore))
  · exact (hleft (List.mem_of_mem_tail htail)).imp_right .inl
  · exact (hleft hmem).imp_right .inl

/-- **STEPS VISIT ENTITIES**: an entity is left behind only with its identifier. -/
theorem hasVisited_of_follows (hwell : ∀ i ∈ p.pool, i.IsWellFormed)
    (hpool : ∀ i ∈ p.pool, ∀ e ∈ i.graph.entities.toList, e ∈ m.entities.toList)
    (hq : ∀ e ∈ q.graph.entities.toList, e ∈ m.entities.toList) (hnodup : t.state.joins.Nodup)
    (ht : t.state.HasVisited q) (h : p.Follows path t next) : next.state.HasVisited q := by
  rcases isInMemory_or_isLookup h with hmemory | ⟨index, hindex, covered, hlookup⟩
  · obtain ⟨hfetched, ⟨-, hjoins⟩ | ⟨hsome, hsettles⟩⟩ := settles_of_inMemory h hmemory.lookedUp
    · rw [PlanState.HasVisited, hfetched, hjoins]
      exact ht
    · intro e he
      rw [hfetched]
      rcases ht e he with hbefore | htail | ⟨hnone, -⟩
      · exact .inl hbefore
      · exact .inr (.inl (mem_tail_of_settles hsettles htail))
      · rw [hsome] at hnone
        exact nomatch hnone
  · exact hasVisited_lookup (hwell index hindex) (hpool index hindex) hq hnodup ht hlookup

/-! ## What is left then is at hand -/

omit [Scalar α] in
/-- A field of the order that is at hand has been fetched: where it is not itself fetched it is the
    identifier of its entity. -/
theorem mem_fetched_of_isAtHand (hm : m.IsBuilt)
    (hone : ∀ e ∈ m.entities.toList, e.identifiers.length = 1) (hq : q.IsOver m)
    {s : PlanState α} (hs : s.HasVisited q) (hjoins : s.joins = []) {f : Field}
    (hf : f ∈ q.orderBy) (hhand : IsAtHand s.fetched f) : f ∈ s.fetched := by
  rcases hhand with hfetched | ⟨hisId, -⟩
  · exact hfetched
  · obtain ⟨e, he, hfield⟩ := hq.order f hf
    obtain ⟨name, count, declarations, hbuild⟩ := hm e he
    obtain ⟨e', he', hname⟩ :=
      List.mem_map.mp (hq.onGraph f (Query.mem_named_of_mem_orderBy hf))
    rw [Entity.entity_of_build hbuild f hfield] at hname
    have hsame : e' = e :=
      SortedSet.eq_of_key_eq (hq.entities e' he') he (congrArg (fun v => [v]) hname)
    rw [hsame] at he'
    -- the entity has no other field of the identifier type
    have hmem : f ∈ e.identifiers := List.mem_filter.mpr ⟨hfield, hisId⟩
    rw [Entity.identifiers_eq_of_length hbuild (hone e he), List.mem_singleton] at hmem
    rw [hmem]
    rcases hs e he' with hfetched | htail | ⟨-, hleft⟩
    · exact hfetched
    · rw [hjoins] at htail
      exact nomatch htail
    · rw [hjoins] at hleft
      exact nomatch hleft

omit [Scalar α] in
/-- What is grouped and aggregated has been fetched once nothing is left to fetch. -/
theorem mem_fetched_of_groups {steps : List (Step α)} {s : PlanState α}
    (hs : s.KeepsWork q steps) (hfields : s.fields.isEmpty = true) :
    ∀ f ∈ s.aggregates.fields ++ s.groupBy.toList, f ∈ s.fetched := by
  have hrequired : ∀ f ∈ q.required, f ∈ s.fetched := fun f hf =>
    (hs.required f hf).resolve_left (SortedSet.isEmpty_iff.mp hfields f)
  intro f hf
  refine hrequired f ?_
  rcases List.mem_append.mp hf with hf | hf
  · obtain ⟨a, ha, rfl⟩ := List.mem_map.mp hf
    obtain ⟨b, hb, hkey⟩ :=
      SortedSet.mem_iff.mp (hs.aggregates a (SortedSet.mem_of_mem_toList ha))
    refine (SortedSet.mem_congr ?_).mp (Query.field_mem_required hb)
    exact (List.cons.inj hkey).2
  · exact SortedSet.mem_union.mpr (.inr (hs.groupBy f (SortedSet.mem_of_mem_toList hf)))

/-- **ONLY WORK IN MEMORY IS LEFT** where nothing is left to visit and nothing has aggregated. -/
theorem isLocal_of_joins_nil (hm : m.IsBuilt)
    (hone : ∀ e ∈ m.entities.toList, e.identifiers.length = 1) {q : Query Rat} (hq : q.IsOver m)
    (hlimit : ∀ limit, q.limit = some limit → 1 ≤ limit) {steps : List (Step Rat)}
    {s : PlanState Rat} (hwork : s.KeepsWork q steps) (hahead : s.KeepsAhead q)
    (hvisited : s.HasVisited q) (hjoins : s.joins = []) (hplain : s.aggregated = false) :
    s.IsLocal := by
  have hfields : s.fields.isEmpty = true := by
    refine List.isEmpty_iff.mpr (List.eq_nil_iff_forall_not_mem.mpr fun f hf => ?_)
    have hleft := hahead.fields f hf
    rw [hjoins] at hleft
    exact nomatch hleft
  have hhand : ∀ f ∈ s.conditions, IsAtHand s.fetched f := by
    intro f hf
    refine (hahead.conditions f hf).resolve_left fun hleft => ?_
    rw [hjoins] at hleft
    exact nomatch hleft
  have hgraph : s.graph = ∅ := by
    rcases hahead.place with ⟨-, hgraph⟩ | ⟨hne, -, -⟩
    · exact hgraph
    · exact absurd hjoins hne
  refine ⟨hfields, fun f hf => ?_, fun f hf => ?_, List.all_eq_true.mpr fun f hf => ?_,
    List.all_eq_true.mpr (mem_fetched_of_groups hwork hfields), hjoins, by rw [hgraph]; rfl,
    hplain, .inr fun rows limit hsome hrows => ?_⟩
  · exact PlanState.isReachable_iff.mpr (hhand f (PlanState.mem_conditions.mpr (.inl hf)))
  · exact PlanState.isReachable_iff.mpr (hhand f (PlanState.mem_conditions.mpr (.inr (.inl hf))))
  · have hask : f ∈ q.orderBy := by
      rw [← orderBy_of_tracks hwork.toTracks (List.ne_nil_of_mem hf)]
      exact hf
    exact mem_fetched_of_isAtHand hm hone hq hvisited hjoins hask
      (hhand f (PlanState.mem_conditions.mpr (.inr (.inr hf))))
  · rw [hwork.query] at hsome
    exact Selectivity.grouped_le _ (Nat.one_le_cast.mpr (hlimit limit hsome)) hrows

/-! ## Nodes that the search keeps -/

/-- Every step of a chain takes room. -/
theorem length_le_room [Scalar.CountsCompare α] (run : List (Transition α)) :
    ∀ path t, p.Continues path t run → run.length ≤ p.room path t.state := by
  induction run with
  | nil => intro path t _; exact Nat.zero_le _
  | cons next rest ih =>
      intro path t h
      have hroom := room_lt_of_mem_successors h.2.1
      have hrest := ih _ next h.2.2
      rw [List.length_cons]
      omega

/-- What goes on from where the search comes goes on from its start. -/
theorem exists_before_of_reaches (h : p.Reaches q path t) : ∀ run, p.Continues path t run →
    ∃ before, before.map (·.step) = path.reverse ∧ before.getLastD (Transition.start q) = t
      ∧ p.Continues [] (Transition.start q) (before ++ run) := by
  induction h with
  | start => intro run hrun; exact ⟨[], rfl, rfl, hrun⟩
  | @onward path t next _ hopen hnext ih =>
      intro run hrun
      obtain ⟨before, hsteps, -, hwhole⟩ := ih (next :: run) ⟨hopen, hnext, hrun⟩
      refine ⟨before ++ [next], ?_, List.getLastD_concat .., ?_⟩
      · rw [List.map_append, hsteps, List.reverse_cons]
        rfl
      · rwa [List.append_assoc]

/-- The search keeps every chain from its start that takes a step. -/
theorem mem_runs_of_continues [Scalar.CountsCompare α] {run : List (Transition α)}
    (hne : run ≠ []) (h : p.Continues [] (Transition.start q) run) :
    run ∈ (p.search q).branches.runs := by
  obtain ⟨next, rest, rfl⟩ := List.exists_cons_of_ne_nil hne
  rw [← continuations_of_unanswered h.1]
  exact mem_continuations_of_continues _ [] _ _ h
    ((length_le_room _ [] _ h).trans (p.room_start_le q))

/-- **NO DEAD ENDS**: over a model in which every entity has one field of the identifier type, for
    a query whose join order lists each entity once and whose limit leaves a row, the search goes
    on from every state without an answer in which nothing is left to visit and nothing has
    aggregated: by a filter, a sort, a limit and an aggregation, each if need be, to an answer.  So
    it keeps what leads to that state. -/
theorem exists_windUp (hm : m.IsBuilt) (hone : ∀ e ∈ m.entities.toList, e.identifiers.length = 1)
    {q : Query Rat} (hq : q.IsOver m) (hjoins : q.joinOrder.Perm q.graph.names)
    (hlimit : ∀ limit, q.limit = some limit → 1 ≤ limit) {indexes : List Index}
    (hbuilt : ∀ i ∈ indexes, ∃ d, Index.build d = .ok i)
    (hindexes : ∀ i ∈ indexes, ∀ e ∈ i.graph.entities.toList, e ∈ m.entities.toList)
    (costs : CostModel Rat) (config : PlanningConfig Rat) {path : List (Step Rat)}
    {t : Transition Rat} (h : (ofIndexes indexes costs config).Reaches q path t)
    (hopen : t.state.isAnswered = false) (hdone : t.state.joins = [])
    (hplain : t.state.aggregated = false) :
    ∃ run, (ofIndexes indexes costs config).IsRun path t run ∧ IsWindUp (run.map (·.step))
      ∧ run.length ≤ 4
      ∧ ∃ before, before.map (·.step) = path.reverse ∧ before.getLastD (Transition.start q) = t
        ∧ before ++ run ∈ ((ofIndexes indexes costs config).search q).branches.runs := by
  have hnodup : q.joinOrder.Nodup := hjoins.nodup_iff.mpr q.graph.nodup_names
  have hwell : ∀ i ∈ (ofIndexes indexes costs config).pool, i.IsWellFormed := fun i hi => by
    obtain ⟨d, hd⟩ := hbuilt i (Index.mem_of_mem_pool hi)
    exact (Index.build_eq_ok_iff.mp hd).2
  have hpool : ∀ i ∈ (ofIndexes indexes costs config).pool,
      ∀ e ∈ i.graph.entities.toList, e ∈ m.entities.toList := fun i hi =>
    hindexes i (Index.mem_of_mem_pool hi)
  obtain ⟨hwork, hahead, hvisited⟩ := holds_of_reaches
    (fun path t => t.state.KeepsWork q path.reverse ∧ t.state.KeepsAhead q ∧ t.state.HasVisited q)
    ⟨keepsWork_start q, keepsAhead_start hq.toIsPlannable hjoins, hasVisited_start hjoins⟩
    (by
      rintro path t next ⟨hwork, hahead, hvisited⟩ hfollows
      have hsuffix := (PlanState.isOnOrder_iff.mp hahead.place).1
      rw [List.reverse_cons]
      exact ⟨keepsWork_of_follows hwork hfollows,
        keepsAhead_of_follows hq.closed hnodup hahead hfollows,
        hasVisited_of_follows hwell hpool hq.entities (hnodup.sublist hsuffix.sublist) hvisited
          hfollows⟩) h
  have hlocal := isLocal_of_joins_nil hm hone hq hlimit hwork hahead hvisited hdone hplain
  obtain ⟨finish, aggregate, ⟨run, hrun, hsteps⟩, hfinish, hlast, -⟩ :=
    finishes_of_isLocal (p := ofIndexes indexes costs config) path hlocal
  have hwindUp : IsWindUp (run.map (·.step)) := ⟨finish, aggregate, hsteps, hfinish, hlast⟩
  have hlength := hwindUp.length_le
  rw [List.length_map] at hlength
  obtain ⟨before, hbefore, hend, hwhole⟩ := exists_before_of_reaches h run hrun
  refine ⟨run, isRun_of_continues run path t hrun, hwindUp, hlength, before, hbefore, hend,
    mem_runs_of_continues (fun hnil => ?_) hwhole⟩
  rw [(List.append_eq_nil_iff.mp hnil).2] at hrun
  rw [show t.state.isAnswered = true from hrun] at hopen
  exact nomatch hopen

/-! ## The names of a city, counted -/

def nameCountsDraft : Query.Draft Rat where
  path := ["user"]
  select := []
  eq := ["user.city"]
  range := ["user.age"]
  orderBy := ["user.name"]
  groupBy := ["user.name"]
  aggregates := [(.count, "user.id")]
  limit := some 5
  weight := 1
  text := some "name counts"

/-- How many users of a city above an age have each name. -/
def nameCountsQuery : Query Rat where
  text := "name counts"
  select := ∅
  eq := SortedSet.ofList [userCity]
  range := SortedSet.ofList [userAge]
  orderBy := [userName]
  groupBy := SortedSet.ofList [userName]
  aggregates := SortedSet.ofList [⟨.count, userId⟩]
  limit := some 5
  graph := JoinGraph.single userEntity
  weight := 1
  handle := 0

def cityNamesDraft : Index.Draft where
  graph := JoinGraph.single userEntity
  partition := [userCity]
  ordered := [userId]
  extra := [userAge, userName]
  aggregates := []
  groupBy := []

/-- Users by their city, with their ages and names. -/
def cityNamesIndex : Index where
  partition := SortedSet.ofList [userCity]
  ordered := [userId]
  extra := SortedSet.ofList [userAge, userName]
  aggregates := ∅
  groupBy := ∅
  graph := JoinGraph.single userEntity

/-- Behind the users of the city the ages are left to filter and the names to sort and to
    count. -/
theorem exists_windUp_nameCounts :
    userModel.IsBuilt ∧ (∀ e ∈ userModel.entities.toList, e.identifiers.length = 1)
      ∧ nameCountsQuery.IsOver userModel
      ∧ nameCountsQuery.joinOrder.Perm nameCountsQuery.graph.names
      ∧ (∀ limit, nameCountsQuery.limit = some limit → 1 ≤ limit)
      ∧ (∀ i ∈ [cityNamesIndex], ∃ d, Index.build d = .ok i)
      ∧ (∀ i ∈ [cityNamesIndex], ∀ e ∈ i.graph.entities.toList, e ∈ userModel.entities.toList)
      ∧ ∃ path t, (ofIndexes [cityNamesIndex] .requestCount {}).Reaches nameCountsQuery path t
        ∧ t.state.isAnswered = false ∧ t.state.joins = [] ∧ t.state.aggregated = false
        ∧ ∃ run, (ofIndexes [cityNamesIndex] .requestCount {}).IsRun path t run
          ∧ IsWindUp (run.map (·.step)) := by
  have hbuild : Query.build userModel nameCountsDraft = .ok nameCountsQuery := rfl
  have hone : ∀ e ∈ userModel.entities.toList, e.identifiers.length = 1 := by
    intro e he
    rw [List.mem_singleton.mp he]
    decide +kernel
  have hq : nameCountsQuery.IsOver userModel := Query.isOver_of_build hbuild
  have hjoins : nameCountsQuery.joinOrder.Perm nameCountsQuery.graph.names := .refl _
  have hlimit : ∀ limit, nameCountsQuery.limit = some limit → 1 ≤ limit := by
    intro limit hsome
    rw [← Option.some.inj hsome]
    decide
  have hbuilt : ∀ i ∈ [cityNamesIndex], ∃ d, Index.build d = .ok i := by
    intro i hi
    rw [List.mem_singleton.mp hi]
    exact ⟨cityNamesDraft, rfl⟩
  have hindexes : ∀ i ∈ [cityNamesIndex], ∀ e ∈ i.graph.entities.toList,
      e ∈ userModel.entities.toList := by
    intro i hi e he
    rw [List.mem_singleton.mp hi] at he
    exact he
  have hfirst : (((ofIndexes [cityNamesIndex] (.requestCount : CostModel Rat) {}).successors []
      (Transition.start nameCountsQuery)).any fun t => !t.state.isAnswered
        && t.state.joins.isEmpty && !t.state.aggregated) = true := by decide +kernel
  obtain ⟨t, hnext, hfound⟩ := List.any_eq_true.mp hfirst
  rw [Bool.and_eq_true, Bool.and_eq_true, Bool.not_eq_true', Bool.not_eq_true',
    List.isEmpty_iff] at hfound
  obtain ⟨⟨hopen, hdone⟩, hplain⟩ := hfound
  have hreaches := Reaches.onward .start (not_isAnswered_start hbuild) hnext
  obtain ⟨run, hrun, hwindUp, -⟩ := exists_windUp isBuilt_userModel hone hq hjoins hlimit hbuilt
    hindexes .requestCount {} hreaches hopen hdone hplain
  exact ⟨isBuilt_userModel, hone, hq, hjoins, hlimit, hbuilt, hindexes, _, t, hreaches, hopen,
    hdone, hplain, run, hrun, hwindUp⟩

end Planner

end IndexDesign
