import IndexDesign.Proofs.Plan.Aggregation
import IndexDesign.Proofs.Plan.OwnView

/-! # Which aggregating queries are answered by their own views

    The view of a query that aggregates applies all equality conditions, one
    range condition and the order that its own order starts with.  It has
    aggregated, so nothing is done in memory behind it: what its lookup leaves
    open stays open.  So such a view answers its query exactly where its lookup
    leaves nothing open. -/

namespace IndexDesign

variable {α : Type} [Scalar α]

/-! ## What the view leaves -/

namespace Query

variable {q : Query α} {head : Entity}

omit [Scalar α] in
theorem dropWhile_ordered_view (h : q.StartsGiven head) :
    (q.viewAt head).ordered.dropWhile q.eq.contains = q.freeKey := by
  rw [ordered_view h, List.dropWhile_append_of_pos]
  · refine List.dropWhile_eq_self_iff.mpr fun hne => ?_
    exact Index.not_mem_of_mem_distinctOutside _ _ (List.getElem_mem hne)
  · intro f hf
    exact SortedSet.mem_of_mem_toList (Index.mem_of_mem_distinctOutside _ _ hf)

omit [Scalar α] in
/-- The first range condition comes first behind the equality conditions. -/
theorem head?_freeKey (hdisjoint : ∀ f ∈ q.eq, f ∉ q.range) {f : Field} {fs : List Field}
    (hrange : q.range.toList = f :: fs) : q.freeKey.head? = some f := by
  have hfirst : f ∉ q.eq := by
    intro hf
    refine hdisjoint f hf (SortedSet.mem_of_mem_toList ?_)
    rw [hrange]
    exact List.mem_cons_self
  rw [freeKey, hrange, List.cons_append, List.cons_append, List.cons_append,
    Index.distinctOutside_cons_of_not_mem hfirst]
  rfl

end Query

namespace PlanState

variable {m : Model} {q : Query α} {head : Entity}

theorem freeOrdered_view (h : q.StartsGiven head) :
    (start q).freeOrdered (q.viewAt head) = q.freeKey := by
  have hdrop : ∀ fs : List Field, fs.drop (fs.takeWhile q.eq.contains).length
      = fs.dropWhile q.eq.contains := by
    intro fs
    have htake := List.prefix_iff_eq_take.mp (fs.takeWhile_prefix q.eq.contains)
    have hsplit := fs.take_append_drop (fs.takeWhile q.eq.contains).length
    rw [← htake] at hsplit
    exact List.append_cancel_left (hsplit.trans List.takeWhile_append_dropWhile.symm)
  exact (hdrop _).trans (Query.dropWhile_ordered_view h)

/-- The view applies one range condition. -/
theorem isEmpty_range_view (h : q.StartsGiven head) (hdisjoint : ∀ f ∈ q.eq, f ∉ q.range) :
    ((start q).narrowed (q.viewAt head) q.joinOrder).range.isEmpty = true ↔ q.range.size ≤ 1 := by
  show (q.range.diff (SortedSet.ofList ((start q).appliedRange (q.viewAt head)))).isEmpty = true ↔ _
  cases hrange : q.range.toList with
  | nil =>
      rw [SortedSet.size, hrange]
      refine ⟨fun _ => Nat.zero_le _, fun _ => SortedSet.isEmpty_filter ?_⟩
      rw [SortedSet.isEmpty, hrange]
      rfl
  | cons f fs =>
      have happlied : (start q).appliedRange (q.viewAt head) = [f] := by
        have hmem : q.range.contains f = true :=
          SortedSet.mem_of_mem_toList (by rw [hrange]; exact List.mem_cons_self)
        rw [appliedRange, freeOrdered_view h, Query.head?_freeKey hdisjoint hrange]
        exact List.filter_eq_self.mpr fun g hg => by rwa [List.mem_singleton.mp hg]
      have hnodup := SortedSet.nodup_keys q.range
      rw [happlied, SortedSet.size, SortedSet.isEmpty_iff]
      rw [hrange, List.map_cons, List.nodup_cons] at hnodup
      constructor
      · intro hnone
        -- another condition would be left
        cases fs with
        | nil => rw [hrange]; exact Nat.le_refl _
        | cons g gs =>
            refine absurd (SortedSet.mem_diff.mpr ⟨SortedSet.mem_of_mem_toList ?_, ?_⟩) (hnone g)
            · rw [hrange]
              exact List.mem_cons_of_mem _ List.mem_cons_self
            · intro hmem
              obtain ⟨x, hx, hkey⟩ := SortedSet.mem_ofList.mp hmem
              rw [List.mem_singleton.mp hx] at hkey
              exact hnodup.1 (hkey ▸ List.mem_map_of_mem List.mem_cons_self)
      · intro hsize g hg
        obtain ⟨hmem, hnot⟩ := SortedSet.mem_diff.mp hg
        obtain ⟨x, hx, hkey⟩ := SortedSet.mem_iff.mp hmem
        rw [hrange, List.length_cons] at hsize
        rw [hrange, List.length_eq_zero_iff.mp (by omega : fs.length = 0)] at hx
        exact hnot (SortedSet.mem_ofList.mpr ⟨x, hx, hkey⟩)

/-- The rows come in the query's order where the key behind the equality conditions starts with
    it. -/
theorem comesSorted_view (hq : q.IsAccepted m) (h : q.StartsGiven head) :
    (start q).comesSorted (q.viewAt head) q.joinOrder = true
      ↔ q.orderBy ≠ [] ∧ q.orderBy.map key <+: q.freeKey.map key := by
  have hgiven : (start q).isGivenOnly (q.viewAt head) = true :=
    List.all_eq_true.mpr fun f hf => Query.mem_eq_of_mem_partition h hf
  have hcovered : q.orderBy.all (q.joinOrder.contains ·.entity) = true := by
    refine List.all_eq_true.mpr fun f hf => List.contains_iff_mem.mpr ?_
    refine (JoinGraph.mem_joinOrder_iff h.joined (Query.joinOrder_ne_nil h)).mpr ?_
    exact hq.covered f (Query.mem_named_of_mem_orderBy hf)
  have hsorted : (start q).comesSorted (q.viewAt head) q.joinOrder
      = (!q.orderBy.isEmpty && (start q).isGivenOnly (q.viewAt head)
        && q.orderBy.all (q.joinOrder.contains ·.entity)
        && (q.orderBy.map key).isPrefixOf (((start q).freeOrdered (q.viewAt head)).map key)) := rfl
  rw [hsorted, hgiven, hcovered, freeOrdered_view h, Bool.and_true, Bool.and_true,
    Bool.and_eq_true, Bool.not_eq_true', List.isEmpty_eq_false_iff, List.isPrefixOf_iff_prefix]

/-- The view leaves no order where its key starts with the query's. -/
theorem isEmpty_orderBy_view (hq : q.IsAccepted m) (h : q.StartsGiven head) :
    ((start q).narrowed (q.viewAt head) q.joinOrder).orderBy.isEmpty = true
      ↔ q.orderBy.map key <+: q.freeKey.map key := by
  show (if (start q).comesSorted (q.viewAt head) q.joinOrder then [] else q.orderBy).isEmpty = true
    ↔ _
  by_cases hnil : q.orderBy = []
  · rw [hnil, ite_self, List.map_nil]
    exact ⟨fun _ => List.nil_prefix, fun _ => rfl⟩
  · have hsorted := comesSorted_view hq h
    rw [and_iff_right hnil] at hsorted
    rw [← hsorted]
    split
    · next hyes => exact ⟨fun _ => hyes, fun _ => rfl⟩
    · next hno =>
      refine ⟨fun hempty => absurd (List.isEmpty_iff.mp hempty) hnil, fun hyes => absurd hyes hno⟩

/-- Cutting rows off is no work that is left: where nothing else is, they are within the limit. -/
theorem isAnswered_settleLimit [Scalar.CountsBound α] (s : PlanState α) :
    s.settleLimit.isAnswered = s.isAnsweredFor { limit := false } := by
  have hsplit : ∀ t : PlanState α,
      t.isAnswered = (t.isAnsweredFor { limit := false } && t.withinLimit) := by
    intro t
    simp only [isAnswered, isAnsweredFor, Bool.not_true, Bool.not_false, Bool.false_or,
      Bool.true_or, Bool.and_true]
  unfold settleLimit
  split
  · next limit hlimit =>
    split
    · next hdone =>
      have hcut : (s.query.limit.all fun n => decide
          (Scalar.min s.rows (Scalar.ofCount limit) ≤ Scalar.ofCount n)) = true := by
        rw [hlimit]
        exact decide_eq_true (Scalar.CountsBound.min_le s.rows limit)
      rw [hsplit, withinLimit]
      show (s.isAnsweredFor _ && s.query.limit.all _) = s.isAnsweredFor _
      rw [hcut, Bool.and_true]
    · next hopen =>
      rw [hsplit, Bool.eq_false_iff.mpr hopen, Bool.false_and]
  · next hlimit =>
    rw [hsplit, withinLimit, hlimit, Option.all_none, Bool.and_true]

/-- **WHAT THE VIEW ANSWERS**: the lookup of the view leaves nothing to do where there is at most
    one range condition and the key behind the equality conditions starts with the order. -/
theorem isAnswered_afterLookup_view [Scalar.CountsBound α] (hq : q.IsAccepted m)
    (h : q.StartsGiven head) (hdisjoint : ∀ f ∈ q.eq, f ∉ q.range)
    (haggregating : q.isAggregating = true) :
    ((start q).afterLookup (q.viewAt head) q.joinOrder).isAnswered = true
      ↔ q.range.size ≤ 1 ∧ q.orderBy.map key <+: q.freeKey.map key := by
  have hview := (q.isAggregating_viewAt head).trans haggregating
  have hall : ∀ {β : Type} [Keyed β] (s : SortedSet β),
      (s.diff (SortedSet.ofList s.toList)).isEmpty = true := by
    intro β _ s
    refine SortedSet.isEmpty_iff.mpr fun x hx => ?_
    obtain ⟨hmem, hnot⟩ := SortedSet.mem_diff.mp hx
    exact hnot (SortedSet.mem_ofList_toList.mpr hmem)
  have haggregates :
      ((start q).narrowed (q.viewAt head) q.joinOrder).aggregates.isEmpty = true := by
    simp only [narrowed, hview]
    exact hall q.aggregates
  have hgroupBy : ((start q).narrowed (q.viewAt head) q.joinOrder).groupBy.isEmpty = true := by
    simp only [narrowed, hview]
    exact hall q.groupBy
  have hfields : ((start q).narrowed (q.viewAt head) q.joinOrder).fields.isEmpty = true :=
    isEmpty_fields_view q head
  have heq : ((start q).narrowed (q.viewAt head) q.joinOrder).eq.isEmpty = true :=
    isEmpty_eq_view h
  rw [afterLookup_eq_settle, settleGraph_view h, isAnswered_settleLimit,
    ← isEmpty_range_view h hdisjoint, ← isEmpty_orderBy_view hq h, ← Bool.and_eq_true]
  have hgraph : (∅ : JoinGraph).isEmpty = true := rfl
  simp only [isAnsweredFor, hfields, heq, haggregates, hgroupBy, hgraph, List.isEmpty_nil,
    Bool.and_true, Bool.true_and, Bool.not_true, Bool.not_false, Bool.false_or, Bool.true_or]

theorem joins_afterLookup_view (h : q.StartsGiven head) :
    ((start q).afterLookup (q.viewAt head) q.joinOrder).joins = [] := by
  rw [afterLookup_eq_settle, settleGraph_view h]
  obtain ⟨rows, hrows⟩ := settleLimit_eq
    { (start q).narrowed (q.viewAt head) q.joinOrder with joins := [], graph := ∅ }
  rw [hrows]

theorem aggregated_afterLookup_view (haggregating : q.isAggregating = true) :
    ((start q).afterLookup (q.viewAt head) q.joinOrder).aggregated = true := by
  obtain ⟨graph, joins, rows, lookups, hstate⟩ :=
    afterLookup_eq (start q) (q.viewAt head) q.joinOrder
  rw [hstate]
  exact (q.isAggregating_viewAt head).trans haggregating

end PlanState

/-! ## The plan -/

namespace Planner

variable {p : Planner α} {q : Query α} {head : Entity} {next : Transition α}

/-- Before an index is looked up there is nothing to work on, so every run starts with a lookup. -/
theorem lookup_of_follows_start (hne : q.joinOrder ≠ [])
    (h : p.Follows [] (Transition.start q) next) : ∃ index ∈ p.pool,
      Transition.lookup p.costs (PlanState.start q) ⟨none, false⟩ index = .ok next := by
  have hvisit : ∀ {checks}, (PlanState.start q).isAnsweredFor checks = true → False :=
    fun hanswered => hne (PlanState.isDone_of_isAnsweredFor hanswered).joins
  cases h with
  | filter h =>
      have hreach : ∀ f, (PlanState.start q).isReachable f = false := fun f => Bool.and_false _
      have hnone : ∀ fs : FieldSet, (fs.filter (PlanState.start q).isReachable).isEmpty = true := by
        intro fs
        refine SortedSet.isEmpty_iff.mpr fun f hf => ?_
        obtain ⟨g, -, hg, -⟩ := SortedSet.mem_filter.mp hf
        rw [hreach g] at hg
        exact nomatch hg
      exact absurd (Bool.and_eq_true_iff.mpr ⟨hnone _, hnone _⟩) (Transition.filter_spec h).2.1
  | sort h => exact (hvisit (Transition.sort_spec h).2.2.2.1).elim
  | limit h =>
      obtain ⟨-, limit, -, -, hanswered, -, -⟩ := Transition.limit_spec h
      exact (hvisit hanswered).elim
  | aggregate h => exact (hvisit (Transition.aggregate_spec h).2.2.1).elim
  | lookup index hpool _ _ h => exact ⟨index, hpool, h⟩

/-- A run over the view of an aggregating query is the lookup of the view. -/
theorem isAnswered_of_isRunOf (h : q.StartsGiven head) (haggregating : q.isAggregating = true)
    (hopen : (Transition.start q).state.isAnswered = false) (hpool : p.pool = [q.viewAt head])
    {run : List (Transition α)} (hrun : p.IsRunOf q run) :
    ((PlanState.start q).afterLookup (q.viewAt head) q.joinOrder).isAnswered = true := by
  cases run with
  | nil =>
      have hanswered : (Transition.start q).state.isAnswered = true := hrun
      rw [hopen] at hanswered
      exact nomatch hanswered
  | cons next rest =>
      obtain ⟨-, hfollows, hrest⟩ := hrun
      obtain ⟨index, hindex, hlookup⟩ :=
        lookup_of_follows_start (Query.joinOrder_ne_nil h) hfollows
      rw [hpool] at hindex
      rw [List.mem_singleton.mp hindex] at hlookup
      obtain ⟨view, hview, -, hstate⟩ := Transition.lookup_view h p.costs
      rw [hlookup] at hview
      rw [← Except.ok.inj hview] at hstate
      rw [← hstate]
      cases rest with
      | nil => exact hrest
      | cons later rest =>
          -- only a lookup follows an aggregation, and there is nothing to look up
          have hjoins : next.state.joins = [] := by
            rw [hstate]
            exact PlanState.joins_afterLookup_view h
          have haggregated : next.state.aggregated = true := by
            rw [hstate]
            exact PlanState.aggregated_afterLookup_view haggregating
          obtain ⟨other, hother, -⟩ := lookup_of_aggregated haggregated hrest.2.1
          rw [not_lookup_of_joins_nil hjoins hrest.2.1] at hother
          exact nomatch hother

/-- Where the view leaves nothing to do, the search finds its lookup. -/
theorem runs_ne_nil_of_isAnswered (h : q.StartsGiven head)
    (hopen : (Transition.start q).state.isAnswered = false) (hpool : q.viewAt head ∈ p.pool)
    (hlookups : ∀ most, p.config.maxLookups = some most → 1 ≤ most)
    (hanswered : ((PlanState.start q).afterLookup (q.viewAt head) q.joinOrder).isAnswered = true) :
    (p.search q).branches.runs ≠ [] := by
  obtain ⟨next, hnext, -, hstate⟩ := Transition.lookup_view h p.costs
  refine List.ne_nil_of_mem (a := [next]) ?_
  rw [← continuations_of_unanswered hopen]
  refine cons_mem_continuations hopen (mem_successors_start h hpool hlookups hnext) ?_
  rw [continuations_of_answered (by rw [hstate]; exact hanswered)]
  exact List.mem_singleton.mpr rfl

/-- **AGGREGATING QUERIES AND THEIR VIEWS**: a query that is accepted, aggregates or groups, and
    gives a value of the entity at which it starts has a view.  With the view as the only
    candidate, planning succeeds exactly where the query has at most one range condition and the
    key of the view, behind what the equality conditions fix, starts with the query's order. -/
theorem plan_aggregatingView_iff [Rendered α] [Scalar.CountsBound α] {m : Model}
    {d : Query.Draft α} (hm : m.IsBuilt) (hq : Query.build m d = .ok q)
    (haggregating : q.isAggregating = true)
    (hgiven : ∃ f ∈ q.eq, q.joinOrder.head? = some f.entity) :
    ∃ view, q.view = .ok view ∧ ∀ costs : CostModel α,
      (∃ tree, (ofIndexes [view] costs {}).plan q = .ok tree)
        ↔ q.range.size ≤ 1 ∧ q.orderBy.map key <+: q.freeKey.map key := by
  obtain ⟨head, hstarts, hview⟩ := Query.exists_startsGiven hm (Query.isAccepted_of_build hq) hgiven
  refine ⟨q.viewAt head, hview, fun costs => ?_⟩
  have hopen := not_isAnswered_start hq
  rw [← PlanState.isAnswered_afterLookup_view (Query.isAccepted_of_build hq) hstarts
    (fun f hf => Query.not_mem_range_of_build hq hf) haggregating]
  constructor
  · rintro ⟨tree, htree⟩
    obtain ⟨run, hrun⟩ := List.exists_mem_of_ne_nil _ (runs_ne_nil_of_plan htree)
    exact isAnswered_of_isRunOf hstarts haggregating hopen rfl (isRunOf_of_plan htree hrun)
  · intro hanswered
    refine ⟨_, plan_of_runs_ne_nil rfl (runs_ne_nil_of_isAnswered hstarts hopen ?_ ?_ hanswered)⟩
    · exact List.mem_singleton.mpr rfl
    · exact fun most hmost => nomatch hmost

/-! ## Counting the users of a city

    The view keeps the number of users by age within each city, so a condition
    on the age, and the order by age, are answered by the lookup.  A second
    condition would have to be filtered behind it. -/

def agesDraft : Query.Draft Rat where
  path := ["user"]
  select := []
  eq := ["user.city"]
  range := ["user.age"]
  orderBy := ["user.age"]
  groupBy := []
  aggregates := [(.count, "user.id")]
  limit := none
  weight := 1
  text := some "ages"

def agesQuery : Query Rat where
  text := "ages"
  select := ∅
  eq := SortedSet.ofList [userCity]
  range := SortedSet.ofList [userAge]
  orderBy := [userAge]
  groupBy := ∅
  aggregates := SortedSet.ofList [⟨.count, userId⟩]
  limit := none
  graph := JoinGraph.single userEntity
  weight := 1
  handle := 0

theorem isBuilt_userModel : userModel.IsBuilt := by
  intro e he
  rw [List.mem_singleton.mp he]
  exact ⟨"user", 100, [.identifier "id" [], .field "city" (.string 16) (some 10),
    .field "age" .integer (some 50), .field "name" (.string 32) (some 90)], rfl⟩

/-- The users of a city above an age are counted by the view. -/
theorem plan_aggregatingView_iff_ages :
    userModel.IsBuilt ∧ Query.build userModel agesDraft = .ok agesQuery
      ∧ agesQuery.isAggregating = true
      ∧ (∃ f ∈ agesQuery.eq, agesQuery.joinOrder.head? = some f.entity)
      ∧ ∃ view, agesQuery.view = .ok view
        ∧ ∃ tree, (ofIndexes [view] .requestCount {}).plan agesQuery = .ok tree := by
  have hbuild : Query.build userModel agesDraft = .ok agesQuery := rfl
  have haggregating : agesQuery.isAggregating = true := rfl
  have hgiven : ∃ f ∈ agesQuery.eq, agesQuery.joinOrder.head? = some f.entity :=
    ⟨userCity, rfl, rfl⟩
  obtain ⟨view, hview, hplans⟩ :=
    plan_aggregatingView_iff isBuilt_userModel hbuild haggregating hgiven
  refine ⟨isBuilt_userModel, hbuild, haggregating, hgiven, view, hview, ?_⟩
  exact (hplans .requestCount).mpr ⟨by decide, by decide⟩

/-- Those with a name in a range besides. -/
def namedAgesDraft : Query.Draft Rat :=
  { agesDraft with range := ["user.age", "user.name"], orderBy := [] }

def namedAgesQuery : Query Rat :=
  { agesQuery with range := SortedSet.ofList [userAge, userName], orderBy := [] }

/-- They are not counted by the view: the condition on the name is left behind the count. -/
theorem namedAges_not_answered :
    userModel.IsBuilt ∧ Query.build userModel namedAgesDraft = .ok namedAgesQuery
      ∧ namedAgesQuery.isAggregating = true
      ∧ (∃ f ∈ namedAgesQuery.eq, namedAgesQuery.joinOrder.head? = some f.entity)
      ∧ ∃ view, namedAgesQuery.view = .ok view
        ∧ ¬ ∃ tree, (ofIndexes [view] .requestCount {}).plan namedAgesQuery = .ok tree := by
  refine ⟨isBuilt_userModel, rfl, rfl, ⟨userCity, rfl, rfl⟩,
    namedAgesQuery.viewAt userEntity, rfl, ?_⟩
  rintro ⟨tree, htree⟩
  have hnone : ((ofIndexes [namedAgesQuery.viewAt userEntity] .requestCount {}).plan
      namedAgesQuery).toOption.isNone = true := by decide +kernel
  rw [htree] at hnone
  exact nomatch hnone

end Planner

end IndexDesign
