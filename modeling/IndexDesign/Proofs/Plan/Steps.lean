import IndexDesign.Plan.Lookup
import IndexDesign.Proofs.Pointwise
import IndexDesign.Proofs.SortedSet

/-! # What steps do to states

    Every step in memory and every lookup is said here once: the checks that it
    has passed, the kind of step it is, and the state it leads to.  Settling a
    state changes only what there is to visit and the estimated rows, so the
    work that a step takes out of a state can be read off its fields. -/

namespace IndexDesign

variable {α : Type}

namespace PlanState

theorem settleGraph_eq (s : PlanState α) :
    ∃ graph joins, s.settleGraph = { s with graph, joins } := by
  unfold settleGraph
  split
  · split
    · exact ⟨_, _, rfl⟩
    · exact ⟨_, _, rfl⟩
  · exact ⟨_, _, rfl⟩

/-- An index covers the entities that come next where it has as many, these and edges that are
    left. -/
theorem coverage_eq_ok_iff {s : PlanState α} {index : Index} {covered : List String} :
    s.coverage index = .ok covered ↔ s.joins.head?.any index.graph.contains = true
      ∧ index.graph.size ≤ s.joins.length ∧ covered = s.joins.take index.graph.size
      ∧ (∀ v ∈ covered, index.graph.contains v = true)
      ∧ ∀ e ∈ index.graph.edges, e ∈ s.graph.edges := by
  simp only [coverage]
  cases hjoins : s.joins with
  | nil =>
      constructor
      · intro h; exact nomatch h
      · rintro ⟨hhead, -⟩; exact nomatch hhead
  | cons head rest =>
      show (if _ then _ else _) = _ ↔ index.graph.contains head = true ∧ _
      cases hhead : index.graph.contains head with
      | false => simp
      | true =>
          by_cases hfew : (head :: rest).length < index.graph.size
          · rw [if_neg (by simp), if_pos hfew]
            constructor
            · intro h; exact nomatch h
            · rintro ⟨-, hsize, -⟩; omega
          · rw [if_neg (by simp), if_neg hfew]
            by_cases hall : (((head :: rest).take index.graph.size).all index.graph.contains
                && index.graph.edges.isSubset s.graph.edges) = true
            · rw [if_pos hall]
              rw [Bool.and_eq_true, List.all_eq_true, SortedSet.isSubset_iff] at hall
              constructor
              · intro h
                rw [← Except.ok.inj h]
                exact ⟨rfl, by omega, rfl, hall⟩
              · rintro ⟨-, -, rfl, -⟩
                rfl
            · rw [if_neg hall]
              rw [Bool.and_eq_true, List.all_eq_true, SortedSet.isSubset_iff] at hall
              constructor
              · intro h; exact nomatch h
              · rintro ⟨-, -, rfl, hcovered⟩
                exact absurd hcovered hall

/-- An index that covers entities has the one where the branch stands. -/
theorem head_contained_of_coverage {s : PlanState α} {index : Index} {covered : List String}
    (h : s.coverage index = .ok covered) : s.joins.head?.any index.graph.contains = true :=
  (coverage_eq_ok_iff.mp h).1

/-- An index that aggregates and is admitted comes first of all that do, and aggregates a part of
    what is left. -/
theorem part_of_admits {s : PlanState α} {context : LookupContext} {index : Index}
    (h : s.admitsAggregation context index = true) (haggregating : index.isAggregating = true) :
    s.aggregated = false ∧ (∀ a, a ∈ index.aggregates → a ∈ s.aggregates)
      ∧ ∀ f, f ∈ index.groupBy → f ∈ s.groupBy := by
  rw [admitsAggregation, haggregating, Bool.not_true, Bool.false_or, Bool.and_eq_true,
    Bool.and_eq_true, Bool.and_eq_true, Bool.not_eq_true', Bool.not_eq_true',
    SortedSet.isSubset_iff, SortedSet.isSubset_iff] at h
  obtain ⟨⟨⟨-, hfresh⟩, hgroupBy⟩, haggregates⟩ := h
  exact ⟨hfresh, haggregates, hgroupBy⟩

/-- An index that is admitted groups by a part of what is left. -/
theorem groupBy_of_admits {s : PlanState α} {context : LookupContext} {index : Index}
    (h : s.admitsAggregation context index = true) : ∀ f, f ∈ index.groupBy → f ∈ s.groupBy := by
  intro f hf
  have haggregating : index.isAggregating = true := by
    rw [Index.isAggregating, Bool.or_eq_true, Bool.not_eq_true', Bool.not_eq_true']
    exact .inr (Bool.eq_false_iff.mpr fun hempty => SortedSet.isEmpty_iff.mp hempty f hf)
  exact (part_of_admits h haggregating).2.2 f hf

variable [Scalar α]

/-- What is done at a state that is answered, as far as the checks go. -/
structure IsDone (s : PlanState α) (checks : AnswerChecks) : Prop where
  fields : s.fields.isEmpty = true
  eq : s.eq.isEmpty = true
  range : s.range.isEmpty = true
  joins : s.joins = []
  order : checks.order = true → s.orderBy = []
  limit : checks.limit = true → s.withinLimit = true

theorem isDone_of_isAnsweredFor {s : PlanState α} {checks : AnswerChecks}
    (h : s.isAnsweredFor checks = true) : s.IsDone checks := by
  unfold isAnsweredFor at h
  simp only [Bool.and_eq_true, Bool.or_eq_true, Bool.not_eq_true', List.isEmpty_iff] at h
  obtain ⟨⟨⟨⟨⟨⟨⟨hfields, heq⟩, hrange⟩, hjoins⟩, -⟩, horder⟩, -⟩, hlimit⟩ := h
  refine ⟨hfields, heq, hrange, hjoins, fun hcheck => ?_, fun hcheck => ?_⟩
  · rcases horder with hoff | horder
    · rw [hoff] at hcheck
      exact nomatch hcheck
    · exact horder
  · rcases hlimit with hoff | hlimit
    · rw [hoff] at hcheck
      exact nomatch hcheck
    · exact hlimit

theorem settleLimit_eq (s : PlanState α) : ∃ rows, s.settleLimit = { s with rows } := by
  unfold settleLimit
  split
  · split
    · exact ⟨_, rfl⟩
    · exact ⟨_, rfl⟩
  · exact ⟨_, rfl⟩

/-- The state that a lookup leaves, before it is settled. -/
def narrowed (s : PlanState α) (index : Index) (covered : List String) : PlanState α :=
  { s with
    fields := s.fields.diff index.allFields
    eq := s.eq.diff (s.appliedEq index)
    range := s.range.diff (SortedSet.ofList (s.appliedRange index))
    orderBy := if s.comesSorted index covered then [] else s.orderBy
    groupBy := if index.isAggregating then s.groupBy.diff index.groupBy else s.groupBy
    aggregates :=
      if index.isAggregating then s.aggregates.diff index.aggregates else s.aggregates
    aggregated := s.aggregated || index.isAggregating
    fetched := s.fetched.union index.allFields
    graph := s.graph.without covered.dropLast
    joins := s.joins.drop (covered.length - 1)
    lookups := s.lookupsOf index
    rows := Selectivity.apply (s.lookupsOf index * index.perPartition) (s.fixedOrdered index)
      (s.appliedRange index) }

theorem afterLookup_eq_settle (s : PlanState α) (index : Index) (covered : List String) :
    s.afterLookup index covered = (s.narrowed index covered).settleGraph.settleLimit := rfl

/-- A lookup takes out what its index brings; the rest is for what is left to visit and the
    estimates. -/
theorem afterLookup_eq (s : PlanState α) (index : Index) (covered : List String) :
    ∃ graph joins rows lookups, s.afterLookup index covered = { s with
      fields := s.fields.diff index.allFields
      eq := s.eq.diff (s.appliedEq index)
      range := s.range.diff (SortedSet.ofList (s.appliedRange index))
      orderBy := if s.comesSorted index covered then [] else s.orderBy
      groupBy := if index.isAggregating then s.groupBy.diff index.groupBy else s.groupBy
      aggregates :=
        if index.isAggregating then s.aggregates.diff index.aggregates else s.aggregates
      aggregated := s.aggregated || index.isAggregating
      fetched := s.fetched.union index.allFields
      graph
      joins
      rows
      lookups } := by
  obtain ⟨graph, joins, hgraph⟩ := settleGraph_eq (s.narrowed index covered)
  obtain ⟨rows, hrows⟩ := settleLimit_eq (s.narrowed index covered).settleGraph
  refine ⟨graph, joins, rows, s.lookupsOf index, ?_⟩
  rw [afterLookup_eq_settle, hrows, hgraph, narrowed]

end PlanState

namespace Transition

variable [Scalar α] {costs : CostModel α} {s : PlanState α} {next : Transition α}

/-! ## Steps in memory -/

/-- A filter takes out the conditions that it applies, and the rest is settled. -/
theorem state_of_filter (h : filter costs s = .ok next) : ∃ rows, next.state
    = ({ s with
        eq := s.eq.diff (s.eq.filter s.isReachable)
        range := s.range.diff (s.range.filter s.isReachable)
        rows } : PlanState α).settleGraph := by
  simp only [filter] at h
  split at h
  · exact nomatch h
  · split at h
    · exact nomatch h
    · rw [← Except.ok.inj h]
      exact ⟨_, rfl⟩

theorem filter_spec (h : filter costs s = .ok next) :
    s.aggregated = false
      ∧ ¬ ((s.eq.filter s.isReachable).isEmpty && (s.range.filter s.isReachable).isEmpty) = true
      ∧ next.step.kind = .filter (s.eq.filter s.isReachable).toList
          (s.range.filter s.isReachable).toList
      ∧ ∃ graph joins rows, next.state = { s with
          eq := s.eq.diff (s.eq.filter s.isReachable)
          range := s.range.diff (s.range.filter s.isReachable)
          graph
          joins
          rows } := by
  obtain ⟨rows, hstate⟩ := state_of_filter h
  obtain ⟨graph, joins, hgraph⟩ := PlanState.settleGraph_eq { s with
    eq := s.eq.diff (s.eq.filter s.isReachable)
    range := s.range.diff (s.range.filter s.isReachable)
    rows }
  simp only [filter] at h
  split at h
  · exact nomatch h
  · next haggregated =>
    split at h
    · exact nomatch h
    · next hwork =>
      have hkind : next.step.kind = .filter (s.eq.filter s.isReachable).toList
          (s.range.filter s.isReachable).toList := by rw [← Except.ok.inj h]
      exact ⟨Bool.eq_false_iff.mpr haggregated, hwork, hkind, graph, joins, rows,
        hstate.trans hgraph⟩

theorem isFilter_filter (h : filter costs s = .ok next) : next.step.isFilter = true := by
  rw [Step.isFilter, (filter_spec h).2.2.1]

theorem sort_spec (h : sort costs s = .ok next) :
    s.aggregated = false ∧ s.orderBy ≠ [] ∧ s.orderBy.all s.fetched.contains = true
      ∧ s.isAnsweredFor ⟨false, false, false⟩ = true
      ∧ next.step.kind = .sort s.orderBy ∧ next.state = { s with orderBy := [] } := by
  unfold sort at h
  split at h
  · exact nomatch h
  · next haggregated =>
    split at h
    · exact nomatch h
    · next hchecks =>
      rw [Bool.or_eq_true, Bool.or_eq_true, Bool.not_eq_true', Bool.not_eq_true', not_or,
        not_or] at hchecks
      obtain ⟨⟨horder, hfetched⟩, hanswered⟩ := hchecks
      rw [← Except.ok.inj h]
      refine ⟨Bool.eq_false_iff.mpr haggregated, ?_, Bool.of_not_eq_false hfetched,
        Bool.of_not_eq_false hanswered, rfl, rfl⟩
      intro hnil
      exact horder (List.isEmpty_iff.mpr hnil)

theorem limit_spec (h : limit costs s = .ok next) :
    s.aggregated = false ∧ ∃ limit, s.query.limit = some limit ∧ s.withinLimit = false
      ∧ s.isAnsweredFor ⟨false, true, false⟩ = true
      ∧ next.step.kind = .limit limit ∧ next.state = { s with rows := Scalar.ofCount limit } := by
  unfold Transition.limit at h
  split at h
  · cases h
  · next haggregated =>
    split at h
    · cases h
    · next limit hlimit =>
      split at h
      · cases h
      · next hchecks =>
        rw [Bool.or_eq_true, Bool.not_eq_true', not_or] at hchecks
        rw [← Except.ok.inj h]
        exact ⟨Bool.eq_false_iff.mpr haggregated, limit, hlimit, Bool.eq_false_iff.mpr hchecks.1,
          Bool.of_not_eq_false hchecks.2, rfl, rfl⟩

theorem aggregate_spec (h : aggregate costs s = .ok next) :
    s.aggregated = false
      ∧ (s.aggregates.fields ++ s.groupBy.toList).all s.fetched.contains = true
      ∧ s.isAnsweredFor ⟨true, true, false⟩ = true
      ∧ next.step.kind = .aggregate s.aggregates.toList s.groupBy.toList
      ∧ ∃ rows,
        next.state = { s with aggregates := ∅, groupBy := ∅, aggregated := true, rows } := by
  unfold aggregate at h
  split at h
  · exact nomatch h
  · next haggregated =>
    split at h
    · exact nomatch h
    · split at h
      · exact nomatch h
      · next hchecks =>
        rw [Bool.or_eq_true, Bool.not_eq_true', Bool.not_eq_true', not_or] at hchecks
        rw [← Except.ok.inj h]
        exact ⟨Bool.eq_false_iff.mpr haggregated, Bool.of_not_eq_false hchecks.1,
          Bool.of_not_eq_false hchecks.2, rfl, _, rfl⟩

/-- What the steps in memory have in common: nothing has aggregated before them, they look
    nothing up, fetch nothing and bring nothing back into a state. -/
structure IsInMemory (s : PlanState α) (next : Transition α) : Prop where
  before : s.aggregated = false
  lookedUp : next.step.lookedUp? = none
  query : next.state.query = s.query
  fields : next.state.fields = s.fields
  fetched : next.state.fetched = s.fetched
  eq : ∀ f ∈ next.state.eq, f ∈ s.eq
  range : ∀ f ∈ next.state.range, f ∈ s.range
  groupBy : ∀ f ∈ next.state.groupBy, f ∈ s.groupBy
  aggregates : ∀ a ∈ next.state.aggregates, a ∈ s.aggregates
  order : next.state.orderBy = [] ∨ next.state.orderBy = s.orderBy
  aggregated : next.state.aggregated = next.step.isAggregating

theorem isInMemory_filter (h : filter costs s = .ok next) : IsInMemory s next := by
  obtain ⟨haggregated, -, hkind, graph, joins, rows, hstate⟩ := filter_spec h
  refine ⟨haggregated, by rw [Step.lookedUp?, hkind], by rw [hstate], by rw [hstate],
    by rw [hstate], ?_, ?_, by rw [hstate]; exact fun _ hf => hf,
    by rw [hstate]; exact fun _ ha => ha, .inr (by rw [hstate]), ?_⟩
  · rw [hstate]
    intro f hf
    exact (SortedSet.mem_diff.mp hf).1
  · rw [hstate]
    intro f hf
    exact (SortedSet.mem_diff.mp hf).1
  · rw [hstate, Step.isAggregating, hkind]
    exact haggregated

theorem isInMemory_sort (h : sort costs s = .ok next) : IsInMemory s next := by
  obtain ⟨haggregated, -, -, -, hkind, hstate⟩ := sort_spec h
  refine ⟨haggregated, by rw [Step.lookedUp?, hkind], by rw [hstate], by rw [hstate],
    by rw [hstate], by rw [hstate]; exact fun _ hf => hf, by rw [hstate]; exact fun _ hf => hf,
    by rw [hstate]; exact fun _ hf => hf, by rw [hstate]; exact fun _ ha => ha,
    .inl (by rw [hstate]), ?_⟩
  rw [hstate, Step.isAggregating, hkind]
  exact haggregated

theorem isInMemory_limit (h : Transition.limit costs s = .ok next) : IsInMemory s next := by
  obtain ⟨haggregated, limit, -, -, -, hkind, hstate⟩ := limit_spec h
  refine ⟨haggregated, by rw [Step.lookedUp?, hkind], by rw [hstate], by rw [hstate],
    by rw [hstate], by rw [hstate]; exact fun _ hf => hf, by rw [hstate]; exact fun _ hf => hf,
    by rw [hstate]; exact fun _ hf => hf, by rw [hstate]; exact fun _ ha => ha,
    .inr (by rw [hstate]), ?_⟩
  rw [hstate, Step.isAggregating, hkind]
  exact haggregated

theorem isInMemory_aggregate (h : aggregate costs s = .ok next) : IsInMemory s next := by
  obtain ⟨haggregated, -, -, hkind, rows, hstate⟩ := aggregate_spec h
  refine ⟨haggregated, by rw [Step.lookedUp?, hkind], by rw [hstate], by rw [hstate],
    by rw [hstate], by rw [hstate]; exact fun _ hf => hf, by rw [hstate]; exact fun _ hf => hf,
    ?_, ?_, .inr (by rw [hstate]), ?_⟩
  · rw [hstate]
    intro f hf
    exact absurd hf SortedSet.not_mem_empty
  · rw [hstate]
    intro a ha
    exact absurd ha SortedSet.not_mem_empty
  · rw [hstate, Step.isAggregating, hkind]

/-! ## Lookups -/

/-- What a lookup has passed, and where it leads. -/
structure IsLookup (costs : CostModel α) (s : PlanState α) (context : LookupContext)
    (index : Index) (covered : List String) (next : Transition α) : Prop where
  coverage : s.coverage index = .ok covered
  bound : ∀ f ∈ index.partition.toList, s.isBound f = true
  localFields : s.hasLocalFields index covered = true
  admits : s.admitsAggregation context index = true
  kind : next.step.kind = .lookup index (s.afterLookup index covered).lookups
  state : next.state = s.afterLookup index covered

theorem IsLookup.lookedUp {context : LookupContext} {index : Index} {covered : List String}
    (h : IsLookup costs s context index covered next) : next.step.lookedUp? = some index := by
  rw [Step.lookedUp?, h.kind]

/-- A lookup has been accepted by a rule about the lookup before it. -/
theorem decision_of_lookup {context : LookupContext} {index : Index}
    (h : lookup costs s context index = .ok next) :
    (ParentRule.decision ⟨s, context.last, index⟩).2 = .ok () := by
  simp only [lookup] at h
  obtain ⟨covered, -, h⟩ := exists_of_bind_eq_ok h
  split at h
  · exact nomatch h
  · obtain ⟨_, hdecision, -⟩ := exists_of_bind_eq_ok h
    exact hdecision

theorem lookup_spec {context : LookupContext} {index : Index}
    (h : lookup costs s context index = .ok next) :
    ∃ covered, IsLookup costs s context index covered next := by
  unfold lookup at h
  cases hcovered : s.coverage index with
  | error e => rw [hcovered] at h; exact nomatch h
  | ok covered =>
      rw [hcovered] at h
      dsimp only [bind, Except.bind] at h
      split at h
      · exact nomatch h
      · split at h
        · exact nomatch h
        · split at h
          · exact nomatch h
          · next hbound =>
            split at h
            · exact nomatch h
            · next hlocal =>
              split at h
              · exact nomatch h
              · split at h
                · exact nomatch h
                · next hadmits =>
                  rw [Bool.not_eq_true', Bool.not_eq_false] at hbound hlocal hadmits
                  refine ⟨covered, hcovered, List.all_eq_true.mp hbound, hlocal, hadmits, ?_, ?_⟩
                  · rw [← Except.ok.inj h]
                  · rw [← Except.ok.inj h]

end Transition

end IndexDesign
