import IndexDesign.Proofs.Counts
import IndexDesign.Proofs.Plan.Runs

/-! # Room — how many steps a run can still take

    A filter takes a condition out of a state, a sort the order, a lookup a
    candidate out of the pool.  Once nothing else is left, a run can cut off
    rows and aggregate, each at most once, and in this order.  The sum of all
    these falls with every step.  So a run is no longer than its start allows,
    and a search to that depth finds all runs. -/

namespace IndexDesign

variable {α : Type} [Scalar α]

namespace PlanState

/-- How many of limit and aggregation can still come. -/
def lastSteps (s : PlanState α) : Nat :=
  if s.aggregated then 0
  else if s.withinLimit && s.isAnsweredFor ⟨false, true, false⟩ then 1
  else 2

theorem lastSteps_le (s : PlanState α) : s.lastSteps ≤ 2 := by
  unfold lastSteps
  split
  · exact Nat.zero_le 2
  · split
    · exact Nat.le_succ 1
    · exact Nat.le_refl 2

/-- As long as other work is left, both can come. -/
theorem lastSteps_eq_two {s : PlanState α} (haggregated : s.aggregated = false)
    (h : s.withinLimit = false ∨ ¬ s.IsDone ⟨false, true, false⟩) : s.lastSteps = 2 := by
  unfold lastSteps
  rw [haggregated, if_neg Bool.false_ne_true, if_neg]
  intro hboth
  obtain ⟨hwithin, hanswered⟩ := (Bool.and_eq_true _ _).mp hboth
  rcases h with h | h
  · rw [h] at hwithin
    exact nomatch hwithin
  · exact h (isDone_of_isAnsweredFor hanswered)

end PlanState

namespace Planner

variable {p : Planner α} {path : List (Step α)} {t next : Transition α}

/-- The candidates that the steps have not looked up. -/
def unused (p : Planner α) (path : List (Step α)) : List Index :=
  p.pool.filter fun index => !((path.filterMap (·.lookedUp?)).map (·.key)).contains index.key

/-- The number of steps that can go on from a state. -/
def room (p : Planner α) (path : List (Step α)) (s : PlanState α) : Nat :=
  (p.unused path).length + s.eq.size + s.range.size + (if s.orderBy = [] then 0 else 1)
    + s.lastSteps

omit [Scalar α] in
theorem unused_of_not_lookup {step : Step α} (h : step.lookedUp? = none) :
    p.unused (step :: path) = p.unused path := by
  unfold unused
  rw [List.filterMap_cons_none h]

omit [Scalar α] in
/-- A lookup of a candidate that is not used leaves fewer. -/
theorem length_unused_lt {step : Step α} {index : Index} (h : step.lookedUp? = some index)
    (hpool : index ∈ p.pool)
    (hunused : index.key ∉ (path.filterMap (·.lookedUp?)).map (·.key)) :
    (p.unused (step :: path)).length < (p.unused path).length := by
  -- what is unused afterwards is what was unused before, without the key of the index
  have hsub : p.unused (step :: path)
      = (p.unused path).filter fun i => !(i.key == index.key) := by
    unfold unused
    rw [List.filter_filter, List.filterMap_cons_some h]
    refine List.filter_congr ?_
    intro i _
    rw [List.map_cons, List.contains_cons, Bool.not_or]
  rw [hsub, List.length_filter_lt_length_iff_exists]
  refine ⟨index, List.mem_filter.mpr ⟨hpool, ?_⟩, ?_⟩
  · rw [Bool.not_eq_true', Bool.eq_false_iff]
    exact fun hmem => hunused (List.contains_iff_mem.mp hmem)
  · rw [beq_self_eq_true]
    exact Bool.false_ne_true

theorem room_filter_lt (h : Transition.filter p.costs t.state = .ok next) :
    p.room (next.step :: path) next.state < p.room path t.state := by
  have hnone := (Transition.isInMemory_filter h).lookedUp
  have hlast := next.state.lastSteps_le
  obtain ⟨haggregated, hwork, -, graph, joins, rows, hstate⟩ := Transition.filter_spec h
  -- there is a condition to apply, so a limit or an aggregation could not have come yet
  have hnot : ¬ t.state.IsDone ⟨false, true, false⟩ := by
    intro hdone
    refine hwork ((Bool.and_eq_true _ _).mpr ⟨?_, ?_⟩)
    · exact SortedSet.isEmpty_filter hdone.eq
    · exact SortedSet.isEmpty_filter hdone.range
  have hsizes : next.state.eq.size + next.state.range.size
      < t.state.eq.size + t.state.range.size := by
    rw [hstate]
    show (t.state.eq.diff _).size + (t.state.range.diff _).size < _
    have heq := SortedSet.size_diff_le t.state.eq (t.state.eq.filter t.state.isReachable)
    have hrange := SortedSet.size_diff_le t.state.range
      (t.state.range.filter t.state.isReachable)
    rw [Bool.and_eq_true, not_and_or] at hwork
    rcases hwork with hwork | hwork
    · have hlt := SortedSet.size_diff_filter_lt hwork
      omega
    · have hlt := SortedSet.size_diff_filter_lt hwork
      omega
  have horder : next.state.orderBy = t.state.orderBy := by rw [hstate]
  unfold room
  rw [unused_of_not_lookup hnone, PlanState.lastSteps_eq_two haggregated (.inr hnot), horder]
  omega

theorem room_sort_lt (h : Transition.sort p.costs t.state = .ok next) :
    p.room (next.step :: path) next.state < p.room path t.state := by
  have hnone := (Transition.isInMemory_sort h).lookedUp
  have hlast := next.state.lastSteps_le
  obtain ⟨haggregated, horder, -, -, -, hstate⟩ := Transition.sort_spec h
  have hnot : ¬ t.state.IsDone ⟨false, true, false⟩ := fun hdone => horder (hdone.order rfl)
  unfold room
  rw [unused_of_not_lookup hnone, PlanState.lastSteps_eq_two haggregated (.inr hnot),
    if_neg horder]
  rw [hstate] at hlast ⊢
  rw [if_pos rfl]
  show _ + t.state.eq.size + t.state.range.size + 0 + _ < _
  omega

/-- After a limit only an aggregation can come: a count of rows is within itself. -/
theorem room_limit_lt [Scalar.CountsCompare α]
    (h : Transition.limit p.costs t.state = .ok next) :
    p.room (next.step :: path) next.state < p.room path t.state := by
  have hnone := (Transition.isInMemory_limit h).lookedUp
  obtain ⟨haggregated, limit, hlimit, hwithin, hanswered, -, hstate⟩ := Transition.limit_spec h
  have hone : next.state.lastSteps = 1 := by
    have hnextWithin : next.state.withinLimit = true := by
      rw [hstate, PlanState.withinLimit]
      show t.state.query.limit.all _ = true
      rw [hlimit]
      exact decide_eq_true (Scalar.CountsCompare.ofCount_le limit)
    have hnextAnswered : next.state.isAnsweredFor ⟨false, true, false⟩ = true := by
      rw [hstate]
      exact hanswered
    have hnextAggregated : next.state.aggregated = false := by rw [hstate]; exact haggregated
    rw [PlanState.lastSteps, hnextAggregated, if_neg Bool.false_ne_true, hnextWithin,
      hnextAnswered]
    rfl
  unfold room
  rw [unused_of_not_lookup hnone, PlanState.lastSteps_eq_two haggregated (.inl hwithin), hone,
    hstate]
  show _ + t.state.eq.size + t.state.range.size + (if t.state.orderBy = [] then 0 else 1) + 1 < _
  omega

theorem room_aggregate_lt (h : Transition.aggregate p.costs t.state = .ok next) :
    p.room (next.step :: path) next.state < p.room path t.state := by
  have hnone := (Transition.isInMemory_aggregate h).lookedUp
  obtain ⟨haggregated, -, -, -, rows, hstate⟩ := Transition.aggregate_spec h
  have hzero : next.state.lastSteps = 0 := by rw [PlanState.lastSteps, hstate]; rfl
  have hpos : 1 ≤ t.state.lastSteps := by
    rw [PlanState.lastSteps, haggregated, if_neg Bool.false_ne_true]
    split
    · exact Nat.le_refl 1
    · exact Nat.le_succ 1
  unfold room
  rw [unused_of_not_lookup hnone, hzero, hstate]
  show _ + t.state.eq.size + t.state.range.size + (if t.state.orderBy = [] then 0 else 1) + 0 < _
  omega

theorem room_lookup_lt {context : LookupContext} {index : Index} (hpool : index ∈ p.pool)
    (hunused : index.key ∉ (path.filterMap (·.lookedUp?)).map (·.key))
    (h : Transition.lookup p.costs t.state context index = .ok next) :
    p.room (next.step :: path) next.state < p.room path t.state := by
  have hlast := next.state.lastSteps_le
  obtain ⟨covered, hlookup⟩ := Transition.lookup_spec h
  have hindex := hlookup.lookedUp
  have hfewer := length_unused_lt hindex hpool hunused
  obtain ⟨graph, joins, rows, lookups, hafter⟩ := t.state.afterLookup_eq index covered
  have hstate := hlookup.state.trans hafter
  have heq : next.state.eq.size ≤ t.state.eq.size := by
    rw [hstate]
    exact SortedSet.size_diff_le _ _
  have hrange : next.state.range.size ≤ t.state.range.size := by
    rw [hstate]
    exact SortedSet.size_diff_le _ _
  have horder : (if next.state.orderBy = [] then 0 else 1)
      ≤ if t.state.orderBy = [] then 0 else 1 := by
    rw [hstate]
    dsimp only
    by_cases hsorted : t.state.comesSorted index covered = true
    · rw [if_pos hsorted, if_pos rfl]
      exact Nat.zero_le _
    · rw [if_neg hsorted]
  have hsteps : next.state.lastSteps ≤ t.state.lastSteps := by
    cases haggregated : t.state.aggregated with
    | true =>
        have hzero : next.state.lastSteps = 0 := by
          rw [PlanState.lastSteps, hstate]
          dsimp only
          rw [haggregated]
          rfl
        rw [hzero]
        exact Nat.zero_le _
    | false =>
        -- there is an entity to visit, so neither a limit nor an aggregation can have come
        rw [PlanState.lastSteps_eq_two haggregated (.inr fun hdone => ?_)]
        · exact hlast
        · have hhead := PlanState.head_contained_of_coverage hlookup.coverage
          rw [hdone.joins] at hhead
          exact absurd hhead Bool.false_ne_true
  unfold room
  omega

/-- **EVERY STEP TAKES ROOM**. -/
theorem room_lt_of_follows [Scalar.CountsCompare α] (hkeys : Index.KeysDistinct p.pool)
    (hpath : p.IsOverPool path) (h : p.Follows path t next) :
    p.room (next.step :: path) next.state < p.room path t.state := by
  cases h with
  | filter h => exact room_filter_lt h
  | sort h => exact room_sort_lt h
  | limit h => exact room_limit_lt h
  | aggregate h => exact room_aggregate_lt h
  | lookup index hpool hunused _ h =>
      exact room_lookup_lt hpool (key_not_used hkeys hpath hpool hunused) h

/-! ## The depth of the search -/

theorem isOverPool_of_follows (hpath : p.IsOverPool path) (h : p.Follows path t next) :
    p.IsOverPool (next.step :: path) := by
  rcases isInMemory_or_isLookup h with hmemory | ⟨index, hpool, covered, hlookup⟩
  · intro used hused
    rw [List.filterMap_cons_none hmemory.lookedUp] at hused
    exact hpath used hused
  · have hindex := hlookup.lookedUp
    intro used hused
    rw [List.filterMap_cons_some hindex] at hused
    rcases List.mem_cons.mp hused with rfl | hused
    · exact hpool
    · exact hpath used hused

/-- **COMPLETENESS OF THE SEARCH**: to the depth that there is room for, it finds every run. -/
theorem mem_continuations_of_isRun [Scalar.CountsCompare α] (hkeys : Index.KeysDistinct p.pool)
    (length : Nat) :
    ∀ path t run, p.IsOverPool path → p.room path t.state ≤ length → p.IsRun path t run →
      run ∈ continuations t (p.explore length path t).branches := by
  induction length with
  | zero =>
      intro path t run hpath hroom h
      cases run with
      | nil =>
          rw [continuations_of_answered h]
          exact List.mem_singleton.mpr rfl
      | cons next rest =>
          have hlt := room_lt_of_follows hkeys hpath h.2.1
          omega
  | succ length ih =>
      intro path t run hpath hroom h
      cases run with
      | nil =>
          rw [continuations_of_answered h]
          exact List.mem_singleton.mpr rfl
      | cons next rest =>
          obtain ⟨hanswered, hfollows, hrest⟩ := h
          have hlt := room_lt_of_follows hkeys hpath hfollows
          have hnext := ih _ next rest (isOverPool_of_follows hpath hfollows) (by omega) hrest
          exact cons_mem_continuations hanswered
            (mem_successors_of_follows hkeys hpath hfollows) hnext

/-- The search goes deeper than there is room for at the start of a query. -/
theorem room_start_lt (p : Planner α) (q : Query α) :
    p.room [] (PlanState.start q) < p.branchLength q := by
  have hlast := (PlanState.start q).lastSteps_le
  have hpool : (p.unused []).length ≤ p.pool.length := List.length_filter_le _ _
  unfold room branchLength
  show _ + q.eq.size + q.range.size + (if q.orderBy = [] then 0 else 1) + _ < _
  split
  · omega
  · omega

theorem room_start_le (p : Planner α) (q : Query α) :
    p.room [] (PlanState.start q) ≤ p.branchLength q := (p.room_start_lt q).le

end Planner

end IndexDesign
