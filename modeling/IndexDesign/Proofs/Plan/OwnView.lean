import IndexDesign.Proofs.Plan.Enumeration
import IndexDesign.Proofs.Plan.InMemory
import IndexDesign.Proofs.Statement.View

/-! # Queries are answered by their own views

    The view of a query that does not aggregate passes every check of a first
    lookup: it covers the whole join order, is found by given values and has
    every field that the query names.  Its partition and the ordered fields
    that come first apply all equality conditions.  All else is fetched
    afterwards, so what is left is work in memory: the conditions that remain
    are filtered, then the rows are sorted and cut off, each if need be. -/

namespace IndexDesign

variable {α : Type}

/-- The plan looks the index up and then at most filters, sorts and cuts off. -/
def Plan.LooksUpOnly (plan : Plan α) (index : Index) : Prop :=
  ∃ lookup steps, plan.steps = lookup :: steps ∧ lookup.lookedUp? = some index ∧ IsFinish steps

variable [Scalar α]

/-! ## Work in memory -/

namespace PlanState

variable {s : PlanState α}

/-- All that is left is to filter, to sort and to cut off, and what that needs is fetched. -/
structure IsReady (s : PlanState α) : Prop where
  fields : s.fields.isEmpty = true
  eq : s.eq.isEmpty = true
  range : ∀ f ∈ s.range.toList, s.isReachable f = true
  order : s.orderBy.all s.fetched.contains = true
  joins : s.joins = []
  graph : s.graph.isEmpty = true
  aggregates : s.aggregates.isEmpty = true
  groupBy : s.groupBy.isEmpty = true
  plain : s.aggregated = false

theorem IsReady.isLocal (h : s.IsReady) : s.IsLocal := by
  have haggregates : s.aggregates.toList = [] := List.isEmpty_iff.mp h.aggregates
  have hgroupBy : s.groupBy.toList = [] := List.isEmpty_iff.mp h.groupBy
  have heq : s.eq.toList = [] := List.isEmpty_iff.mp h.eq
  refine ⟨h.fields, ?_, h.range, h.order, ?_, h.joins, h.graph, h.plain, .inl ?_⟩
  · rw [heq]
    exact fun f hf => nomatch hf
  · rw [AggregateSet.fields, haggregates, hgroupBy]
    rfl
  · rw [h.aggregates, h.groupBy]
    rfl

end PlanState

namespace Planner

variable {p : Planner α} {t : Transition α}

/-- From a state that is ready the search finds a filter, a sort and a limit, each if need be, that
    answer the query. -/
theorem exists_filter [Scalar.CountsCompare α] (h : t.state.IsReady) (path : List (Step α))
    (length : Nat) : ∃ run ∈ continuations t (p.explore (length + 3) path t).branches,
      IsFinish (run.map (·.step)) := by
  obtain ⟨finish, aggregate, ⟨run, hrun, hsteps⟩, hfinish, -, hnone⟩ :=
    finishes_of_isLocal (p := p) path h.isLocal
  -- nothing is left to aggregate
  rw [hnone (by rw [h.aggregates, h.groupBy]; rfl), Option.toList_none, List.append_nil] at hsteps
  rw [← hsteps] at hfinish
  have hlength := hfinish.length_le
  rw [List.length_map] at hlength
  exact ⟨run, mem_continuations_of_continues run path t _ hrun (by omega), hfinish⟩

end Planner

/-! ## Looking up the view -/

namespace Query

variable {m : Model} {q : Query α} {head : Entity}

/-- The view of a query that starts at the given entity, as it is built. -/
def viewAt (q : Query α) (head : Entity) : Index := (q.viewDraft head).normalize

/-- What makes the view of a query the one to look up first: the query is about a joined graph
    and gives a value of the entity at which it starts. -/
structure StartsGiven (q : Query α) (head : Entity) : Prop where
  joined : q.graph.IsJoined
  first : q.joinOrder.head? = some head.name
  given : ∃ f ∈ q.eq.toList, f.entity = head.name

/-- What makes the view of a query answer it: moreover the query does not aggregate. -/
structure IsViewable (q : Query α) (head : Entity) : Prop extends q.StartsGiven head where
  plain : q.isAggregating = false

omit [Scalar α] in
/-- A query that is accepted and gives a value of the entity at which it starts has a view. -/
theorem exists_startsGiven (hm : m.IsBuilt) (hq : q.IsAccepted m)
    (hgiven : ∃ f ∈ q.eq, q.joinOrder.head? = some f.entity) :
    ∃ head, q.StartsGiven head ∧ q.view = .ok (q.viewAt head) := by
  obtain ⟨f, hf, hfirst⟩ := hgiven
  have hne : q.joinOrder ≠ [] := by
    intro hnil
    rw [hnil] at hfirst
    exact nomatch hfirst
  obtain ⟨head, -, hhead, hview⟩ := exists_view hm hq hne
  obtain ⟨last, hgraph⟩ := hq.graph
  obtain ⟨g, hg, hkey⟩ := SortedSet.mem_iff.mp hf
  refine ⟨head, ⟨hgraph.isJoined, hhead, g, hg, ?_⟩, hview⟩
  rw [hfirst, Option.some.injEq] at hhead
  rw [← hhead]
  exact (List.cons.inj hkey).1

omit [Scalar α] in
theorem contains_view {f : Field} (hf : f ∈ q.named) : (q.viewAt head).containsField f = true :=
  Index.mem_allFields_of_mem_stored (mem_stored_view (.inl hf))

omit [Scalar α] in
/-- The view aggregates where the query does. -/
theorem isAggregating_viewAt (q : Query α) (head : Entity) :
    (q.viewAt head).isAggregating = q.isAggregating := by
  simp only [Index.isAggregating, isAggregating, viewAt, Index.Draft.normalize, viewDraft,
    SortedSet.ofList_toList]

omit [Scalar α] in
/-- The partition of the view has given fields only. -/
theorem mem_eq_of_mem_partition (h : q.StartsGiven head) {f : Field}
    (hf : f ∈ (q.viewAt head).partition.toList) : f ∈ q.eq := by
  have hmem : f ∈ q.viewPartition head := SortedSet.mem_of_mem_toList_ofList hf
  obtain ⟨g, hg, hentity⟩ := h.given
  have hgiven : g ∈ q.eq.toList.filter (·.entity == head.name) :=
    List.mem_filter.mpr ⟨hg, beq_iff_eq.mpr hentity⟩
  simp only [viewPartition] at hmem
  split at hmem
  · next hnone =>
    rw [hnone] at hgiven
    cases hgiven
  · exact SortedSet.mem_of_mem_toList (List.mem_filter.mp hmem).1

omit [Scalar α] in
theorem joinOrder_ne_nil (h : q.StartsGiven head) : q.joinOrder ≠ [] := by
  intro hnil
  have hfirst := h.first
  rw [hnil] at hfirst
  exact nomatch hfirst

/-- The view covers the whole join order. -/
theorem coverage_view (h : q.StartsGiven head) :
    (PlanState.start q).coverage (q.viewAt head) = .ok q.joinOrder := by
  have hlength : q.joinOrder.length = q.graph.size :=
    JoinGraph.length_joinOrder h.joined (joinOrder_ne_nil h)
  have hcontains : ∀ v ∈ q.joinOrder, q.graph.contains v = true := fun v hv =>
    JoinGraph.contains_iff.mpr ((JoinGraph.joinOrder_sound h.joined.keepsWalks q.eq).2 v hv)
  refine PlanState.coverage_eq_ok_iff.mpr ⟨?_, hlength.ge, ?_, hcontains, fun _ he => he⟩
  · show q.joinOrder.head?.any q.graph.contains = true
    rw [h.first]
    exact hcontains _ (List.mem_of_mem_head? h.first)
  · show q.joinOrder = q.joinOrder.take q.graph.size
    rw [← hlength, List.take_length]

/-- The fields that sort the view behind those that equality conditions fix. -/
def freeKey (q : Query α) : List Field :=
  Index.distinctOutside q.eq
    (q.range.toList ++ q.groupBy.toList ++ q.orderBy ++ q.identifiers)

omit [Scalar α] in
/-- The ordered fields start with the conditions that are not in the partition. -/
theorem ordered_view (h : q.StartsGiven head) : (q.viewAt head).ordered
    = Index.distinctOutside (q.viewAt head).partition q.eq.toList ++ q.freeKey := by
  have hsplit : (q.viewAt head).ordered = Index.distinctOutside (q.viewAt head).partition
      (q.eq.toList ++ (q.range.toList ++ q.groupBy.toList ++ q.orderBy ++ q.identifiers)) := by
    rw [← List.append_assoc, ← List.append_assoc, ← List.append_assoc]
    rfl
  rw [hsplit, Index.distinctOutside_append]
  refine congrArg _ (Index.distinctOutside_congr _ _ _ fun f => ?_)
  -- the partition is given, so all that is taken are the equality conditions
  rw [SortedSet.mem_extend, ← SortedSet.mem_iff, or_iff_right_iff_imp]
  intro hf
  obtain ⟨g, hg, hkey⟩ := SortedSet.mem_iff.mp hf
  exact (SortedSet.mem_congr hkey).mp (mem_eq_of_mem_partition h hg)

omit [Scalar α] in
/-- The equality conditions are applied by the partition and the first ordered fields. -/
theorem mem_fixed_view (h : q.StartsGiven head) {f : Field} (hf : f ∈ q.eq) :
    f ∈ (q.viewAt head).partition
      ∨ ∃ g ∈ (q.viewAt head).ordered.takeWhile q.eq.contains, key g = key f := by
  obtain ⟨x, hx, hkey⟩ := SortedSet.mem_iff.mp hf
  rcases Index.exists_mem_distinctOutside q.eq.toList (q.viewAt head).partition hx
    with hmem | ⟨g, hg, hsame⟩
  · exact .inl ((SortedSet.mem_congr hkey).mp hmem)
  · refine .inr ⟨g, ?_, hsame.trans hkey⟩
    rw [ordered_view h, List.takeWhile_append_of_pos]
    · exact List.mem_append_left _ hg
    · intro y hy
      exact SortedSet.mem_of_mem_toList (Index.mem_of_mem_distinctOutside _ _ hy)

end Query

namespace Transition

variable {q : Query α} {head : Entity}

/-- **THE VIEW PASSES**: the view of a query passes every check of a first lookup. -/
theorem lookup_view (h : q.StartsGiven head) (costs : CostModel α) :
    ∃ next, lookup costs (PlanState.start q) ⟨none, false⟩ (q.viewAt head) = .ok next
      ∧ next.step.lookedUp? = some (q.viewAt head)
      ∧ next.state = (PlanState.start q).afterLookup (q.viewAt head) q.joinOrder := by
  have hcontains : ∀ f ∈ q.named, (q.viewAt head).containsField f = true :=
    fun f hf => Query.contains_view hf
  have hbound : (q.viewAt head).partition.toList.all (PlanState.start q).isBound = true := by
    refine List.all_eq_true.mpr fun f hf => ?_
    refine (Bool.or_eq_true _ _).mpr (.inl ?_)
    exact Query.mem_eq_of_mem_partition h hf
  have hlocal : (PlanState.start q).hasLocalFields (q.viewAt head) q.joinOrder = true := by
    simp only [PlanState.hasLocalFields, Bool.and_eq_true, List.all_eq_true, Bool.or_eq_true]
    refine ⟨fun f hf => .inr (hcontains f ?_), fun f hf => .inr (hcontains f ?_)⟩
    · simp only [PlanState.start, List.mem_append] at hf
      simp only [Query.named, List.mem_append]
      tauto
    · exact List.mem_append_right _ hf
  have hleaves : (PlanState.start q).completesLeaves (q.viewAt head) q.joinOrder = true := by
    simp only [PlanState.completesLeaves, List.all_eq_true]
    intro leaf _
    refine Option.all_eq_true .. |>.mpr fun entity _ => (Bool.or_eq_true _ _).mpr (.inr ?_)
    refine List.all_eq_true.mpr fun f hf => hcontains f ?_
    exact List.mem_append_right _ (List.mem_filter.mp hf).1
  have hadmits : (PlanState.start q).admitsAggregation ⟨none, false⟩ (q.viewAt head) = true := by
    -- the view groups by and aggregates what the query does
    have hgroupBy : (q.viewAt head).groupBy.isSubset q.groupBy = true :=
      SortedSet.isSubset_iff.mpr fun _ => SortedSet.mem_ofList_toList.mp
    have haggregates : (q.viewAt head).aggregates.isSubset q.aggregates = true :=
      SortedSet.isSubset_iff.mpr fun _ => SortedSet.mem_ofList_toList.mp
    refine (Bool.or_eq_true _ _).mpr (.inr ?_)
    simp only [PlanState.start, hgroupBy, haggregates, Bool.not_false, Bool.and_true]
  have hforward : (PlanState.start q).isBackward ⟨none, false⟩ (q.viewAt head) = false := by
    simp [PlanState.isBackward]
  have hparent : (ParentRule.decision ⟨PlanState.start q, none, q.viewAt head⟩).2 = .ok () := rfl
  simp only [lookup, Query.coverage_view h, hforward, hparent, hbound, hlocal, hleaves, hadmits,
    bind, Except.bind, pure, Except.pure, Bool.not_true, Bool.false_eq_true, if_false]
  exact ⟨_, rfl, rfl, rfl⟩

end Transition

namespace PlanState

variable {q : Query α} {head : Entity} {s : PlanState α}

omit [Scalar α] in
/-- Where the last entity is not needed, nothing is left to visit. -/
theorem settleGraph_of_last {last : String} (hjoins : s.joins = [last])
    (hneeds : s.needs last = false) : s.settleGraph = { s with joins := [], graph := ∅ } := by
  simp only [settleGraph, hjoins, hneeds]
  rfl

omit [Scalar α] in
/-- What is fetched with all fields has nothing left that an entity is needed for. -/
theorem needs_eq_false {entity : String} (hfields : s.fields.isEmpty = true)
    (hreach : ∀ f ∈ s.eq.toList ++ s.range.toList ++ s.orderBy, s.isReachable f = true) :
    s.needs entity = false := by
  have hnil : s.fields.toList = [] := List.isEmpty_iff.mp hfields
  simp only [needs, hnil, List.any_nil, Bool.false_or, List.any_eq_false]
  intro f hf
  rw [hreach f hf]
  simp

omit [Scalar α] in
theorem isReachable_of_mem_fetched {f : Field} (h : f ∈ s.fetched) : s.isReachable f = true :=
  (Bool.or_eq_true _ _).mpr (.inl h)

omit [Scalar α] in
/-- The view brings every field that the query asks for. -/
theorem isEmpty_fields_view (q : Query α) (head : Entity) :
    (q.required.diff (q.viewAt head).allFields).isEmpty = true := by
  refine SortedSet.isEmpty_iff.mpr fun f hf => ?_
  obtain ⟨hmem, hnot⟩ := SortedSet.mem_diff.mp hf
  obtain ⟨x, hx, hkey⟩ := SortedSet.mem_iff.mp hmem
  refine hnot ((SortedSet.mem_congr hkey).mp (Query.contains_view ?_))
  exact List.mem_append_right _ hx

/-- The view applies every equality condition. -/
theorem isEmpty_eq_view (h : q.StartsGiven head) :
    (q.eq.diff ((start q).appliedEq (q.viewAt head))).isEmpty = true := by
  refine SortedSet.isEmpty_iff.mpr fun f hf => ?_
  obtain ⟨hmem, hnot⟩ := SortedSet.mem_diff.mp hf
  have hfixed : (start q).fixedOrdered (q.viewAt head)
      = (q.viewAt head).ordered.takeWhile q.eq.contains :=
    (List.prefix_iff_eq_take.mp (List.takeWhile_prefix _)).symm
  refine hnot (SortedSet.mem_union.mpr ?_)
  rcases Query.mem_fixed_view h hmem with hpartition | hordered
  · obtain ⟨x, hx, hkey⟩ := SortedSet.mem_iff.mp hmem
    exact .inl (SortedSet.mem_filter.mpr
      ⟨x, hx, (SortedSet.mem_congr hkey).mpr hpartition, hkey⟩)
  · rw [hfixed]
    exact .inr (SortedSet.mem_ofList.mpr hordered)

/-- The view brings every field that the query names. -/
theorem mem_fetched_view {f : Field} (hf : f ∈ q.named) :
    f ∈ ((start q).narrowed (q.viewAt head) q.joinOrder).fetched :=
  SortedSet.mem_union.mpr (.inr (Query.contains_view hf))

theorem range_view_subset {f : Field}
    (hf : f ∈ ((start q).narrowed (q.viewAt head) q.joinOrder).range.toList) :
    f ∈ q.range.toList := (List.mem_filter.mp hf).1

theorem orderBy_view_subset {f : Field}
    (hf : f ∈ ((start q).narrowed (q.viewAt head) q.joinOrder).orderBy) : f ∈ q.orderBy := by
  simp only [narrowed] at hf
  split at hf
  · cases hf
  · exact hf

/-- Behind the view there is nothing left to visit. -/
theorem settleGraph_view (h : q.StartsGiven head) :
    ((start q).narrowed (q.viewAt head) q.joinOrder).settleGraph
      = { (start q).narrowed (q.viewAt head) q.joinOrder with joins := [], graph := ∅ } := by
  obtain ⟨last, hlast⟩ : ∃ last, q.joinOrder.drop (q.joinOrder.length - 1) = [last] := by
    refine List.length_eq_one_iff.mp ?_
    have hpos := List.length_pos_iff.mpr (Query.joinOrder_ne_nil h)
    rw [List.length_drop]
    omega
  refine settleGraph_of_last hlast (needs_eq_false (isEmpty_fields_view q head) fun f hf => ?_)
  refine isReachable_of_mem_fetched (mem_fetched_view ?_)
  have heq : ((start q).narrowed (q.viewAt head) q.joinOrder).eq.toList = [] :=
    List.isEmpty_iff.mp (isEmpty_eq_view h)
  rw [heq, List.nil_append] at hf
  rcases List.mem_append.mp hf with hf | hf
  · exact Query.mem_named_of_mem_range (range_view_subset hf)
  · exact Query.mem_named_of_mem_orderBy (orderBy_view_subset hf)

/-- **AFTER THE VIEW**: behind the lookup of the view only work in memory is left. -/
theorem isReady_afterLookup (h : q.IsViewable head) :
    ((start q).afterLookup (q.viewAt head) q.joinOrder).IsReady := by
  have hplain := (q.isAggregating_viewAt head).trans h.plain
  have hnone : q.aggregates.isEmpty = true ∧ q.groupBy.isEmpty = true := by
    simpa [Query.isAggregating] using h.plain
  rw [afterLookup_eq_settle, settleGraph_view h.toStartsGiven]
  obtain ⟨rows, hrows⟩ := settleLimit_eq
    { (start q).narrowed (q.viewAt head) q.joinOrder with joins := [], graph := ∅ }
  rw [hrows]
  refine ⟨isEmpty_fields_view q head, isEmpty_eq_view h.toStartsGiven, fun f hf => ?_,
    List.all_eq_true.mpr fun f hf => ?_, rfl, rfl, ?_, ?_, ?_⟩
  · exact isReachable_of_mem_fetched
      (mem_fetched_view (Query.mem_named_of_mem_range (range_view_subset hf)))
  · exact mem_fetched_view (Query.mem_named_of_mem_orderBy (orderBy_view_subset hf))
  · simp only [narrowed, hplain]
    exact hnone.1
  · simp only [narrowed, hplain]
    exact hnone.2
  · simp only [narrowed, hplain]
    rfl

end PlanState

/-! ## The plan -/

namespace Planner

variable [Scalar.CountsCompare α] {m : Model} {d : Query.Draft α} {q : Query α} {head : Entity}
  {p : Planner α}

omit [Scalar.CountsCompare α] in
/-- The lookup of the view is one of the first steps that the search tries. -/
theorem mem_successors_start (h : q.StartsGiven head) (hpool : q.viewAt head ∈ p.pool)
    (hlookups : ∀ most, p.config.maxLookups = some most → 1 ≤ most) {next : Transition α}
    (hnext : Transition.lookup p.costs (PlanState.start q) ⟨none, false⟩ (q.viewAt head)
      = .ok next) : next ∈ p.successors [] (Transition.start q) := by
  refine mem_successors_iff.mpr (.inr (.inr (.inr (.inr (mem_lookups_iff.mpr
    ⟨atLookupLimit_eq_false_iff.mpr hlookups, q.viewAt head, hpool, ?_,
      List.not_mem_nil, hnext⟩)))))
  exact PlanState.head_contained_of_coverage (Query.coverage_view h)

/-- The search finds the run that looks up the view. -/
theorem exists_run (h : q.IsViewable head) (hopen : (Transition.start q).state.isAnswered = false)
    (hpool : q.viewAt head ∈ p.pool)
    (hlookups : ∀ most, p.config.maxLookups = some most → 1 ≤ most) :
    ∃ run ∈ (p.search q).branches.runs, (planOf q run).LooksUpOnly (q.viewAt head) := by
  obtain ⟨next, hnext, hindex, hstate⟩ := Transition.lookup_view h.toStartsGiven p.costs
  have hready : next.state.IsReady := by
    rw [hstate]
    exact PlanState.isReady_afterLookup h
  -- the search is deep enough for the lookup and three steps behind it
  obtain ⟨length, hlength⟩ : ∃ length, p.branchLength q = length + 4 :=
    ⟨p.pool.length + q.eq.size + q.range.size, rfl⟩
  obtain ⟨run, hrun, hfinish⟩ := exists_filter (p := p) hready [next.step] length
  refine ⟨next :: run, ?_, next.step, run.map (·.step), rfl, hindex, hfinish⟩
  rw [← continuations_of_unanswered hopen]
  show _ ∈ continuations _ (p.explore (p.branchLength q) [] (Transition.start q)).branches
  rw [hlength]
  exact cons_mem_continuations hopen
    (mem_successors_start h.toStartsGiven hpool hlookups hnext) hrun

/-- **QUERIES ARE ANSWERED BY THEIR VIEWS**: a query that is accepted, does not aggregate and
    gives a value of the entity at which it starts has a view, and with the view among the
    candidates, no bound on costs and at least one lookup allowed, planning succeeds with a plan
    that looks up the view alone. -/
theorem plan_view [Rendered α] (hm : m.IsBuilt) (hq : Query.build m d = .ok q)
    (hplain : q.isAggregating = false) (hgiven : ∃ f ∈ q.eq, q.joinOrder.head? = some f.entity) :
    ∃ view, q.view = .ok view ∧ ∀ indexes : List Index, view ∈ indexes →
      (∀ i ∈ indexes, ∀ j ∈ indexes, i.descriptor = j.descriptor → i = j) →
      ∀ (costs : CostModel α) (config : PlanningConfig α), config.costRatio = none →
      (∀ most, config.maxLookups = some most → 1 ≤ most) →
        ∃ tree, (ofIndexes indexes costs config).plan q = .ok tree
          ∧ ∃ plan ∈ tree.plans, plan.LooksUpOnly view := by
  obtain ⟨head, hstarts, hview⟩ :=
    Query.exists_startsGiven hm (Query.isAccepted_of_build hq) hgiven
  have hviewable : q.IsViewable head := ⟨hstarts, hplain⟩
  refine ⟨q.viewAt head, hview, ?_⟩
  intro indexes hmem hsame costs config hratio hlookups
  generalize hp : ofIndexes indexes costs config = p
  have hpool : q.viewAt head ∈ p.pool := by
    subst hp
    obtain ⟨i, hi, hdescriptor⟩ := Index.exists_mem_pool hmem
    rw [← hsame i (Index.mem_of_mem_pool hi) _ hmem hdescriptor]
    exact hi
  obtain ⟨run, hrun, honly⟩ := exists_run hviewable (not_isAnswered_start hq) hpool
    (by subst hp; exact hlookups)
  refine ⟨p.search q, plan_of_runs_ne_nil (by subst hp; exact hratio) ?_, planOf q run, ?_, honly⟩
  · exact List.ne_nil_of_mem hrun
  · rw [plans_eq_map_planOf (p.search q) q]
    exact List.mem_map_of_mem hrun

/-- The names of a city have a view, and a plan that looks up nothing else. -/
theorem plan_view_names :
    userModel.IsBuilt ∧ Query.build userModel namesDraft = .ok namesQuery
      ∧ namesQuery.isAggregating = false
      ∧ (∃ f ∈ namesQuery.eq, namesQuery.joinOrder.head? = some f.entity)
      ∧ ∃ view, namesQuery.view = .ok view
        ∧ ∃ tree, (ofIndexes [view] .requestCount {}).plan namesQuery = .ok tree
          ∧ ∃ plan ∈ tree.plans, plan.LooksUpOnly view := by
  have hbuilt : userModel.IsBuilt := by
    intro e he
    rw [List.mem_singleton.mp he]
    exact ⟨"user", 100, [.identifier "id" [], .field "city" (.string 16) (some 10),
      .field "age" .integer (some 50), .field "name" (.string 32) (some 90)], rfl⟩
  have hbuild : Query.build userModel namesDraft = .ok namesQuery := rfl
  have hplain : namesQuery.isAggregating = false := rfl
  have hgiven : ∃ f ∈ namesQuery.eq, namesQuery.joinOrder.head? = some f.entity :=
    ⟨userCity, rfl, rfl⟩
  obtain ⟨view, hview, hanswers⟩ := plan_view hbuilt hbuild hplain hgiven
  refine ⟨hbuilt, hbuild, hplain, hgiven, view, hview, ?_⟩
  refine hanswers [view] (List.mem_singleton.mpr rfl) ?_ .requestCount {} rfl
    (fun most hmost => nomatch hmost)
  intro i hi j hj _
  rw [List.mem_singleton.mp hi, List.mem_singleton.mp hj]

end Planner

end IndexDesign
