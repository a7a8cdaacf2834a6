import IndexDesign.Proofs.Counts
import IndexDesign.Proofs.Plan.Runs

/-! # Work in memory ends

    Once nothing is left to visit and all that is needed is at hand, the work
    that is left is done in memory: the conditions are filtered, then the rows
    are sorted, cut off and aggregated, each if need be.  Each of the four steps
    asks for the work of those before it to be done, so there is one order in
    which they pass.

    The states on the way have the same fields at hand.  A chain of successors
    that ends in an answered state is found by the search to any depth that it
    fits in. -/

namespace IndexDesign

variable {α : Type}

/-- The steps filter, sort and cut off, each at most once and in this order. -/
def IsFinish (steps : List (Step α)) : Prop :=
  ∃ filter sort limit : Option (Step α),
    steps = filter.toList ++ sort.toList ++ limit.toList
      ∧ (∀ step ∈ filter, step.isFilter = true)
      ∧ (∀ step ∈ sort, step.isSort = true)
      ∧ ∀ step ∈ limit, ∃ rows, step.kind = .limit rows

/-- The steps filter, sort, cut off and aggregate in memory, each at most once and in this
    order. -/
def IsWindUp (steps : List (Step α)) : Prop :=
  ∃ (finish : List (Step α)) (aggregate : Option (Step α)),
    steps = finish ++ aggregate.toList ∧ IsFinish finish
      ∧ ∀ step ∈ aggregate, ∃ aggregates groupBy, step.kind = .aggregate aggregates groupBy

theorem IsFinish.length_le {steps : List (Step α)} (h : IsFinish steps) : steps.length ≤ 3 := by
  obtain ⟨filter, sort, limit, rfl, -⟩ := h
  have hfilter := Option.length_toList_le (o := filter)
  have hsort := Option.length_toList_le (o := sort)
  have hlimit := Option.length_toList_le (o := limit)
  rw [List.length_append, List.length_append]
  omega

theorem IsWindUp.length_le {steps : List (Step α)} (h : IsWindUp steps) : steps.length ≤ 4 := by
  obtain ⟨finish, aggregate, rfl, hfinish, -⟩ := h
  have hlast := Option.length_toList_le (o := aggregate)
  have hfirst := hfinish.length_le
  rw [List.length_append]
  omega

variable [Scalar α]

/-! ## States with work in memory left -/

namespace PlanState

variable {s : PlanState α}

/-- There is nothing to group, or grouping rows within the limit leaves rows within the limit. -/
def GroupsWithin (s : PlanState α) : Prop :=
  (s.aggregates.isEmpty && s.groupBy.isEmpty) = true
    ∨ ∀ rows limit, s.query.limit = some limit → rows ≤ (Scalar.ofCount limit : α) →
        Selectivity.grouped rows s.groupBy.toList ≤ (Scalar.ofCount limit : α)

/-- All that is left is work in memory, and what that needs is at hand. -/
structure IsLocal (s : PlanState α) : Prop where
  fields : s.fields.isEmpty = true
  eq : ∀ f ∈ s.eq.toList, s.isReachable f = true
  range : ∀ f ∈ s.range.toList, s.isReachable f = true
  order : s.orderBy.all s.fetched.contains = true
  groups : (s.aggregates.fields ++ s.groupBy.toList).all s.fetched.contains = true
  joins : s.joins = []
  graph : s.graph.isEmpty = true
  plain : s.aggregated = false
  within : s.GroupsWithin

/-- No condition is left. -/
structure IsFiltered (s : PlanState α) : Prop extends s.IsLocal where
  eqDone : s.eq.isEmpty = true
  rangeDone : s.range.isEmpty = true

/-- What is left when no condition is: the order, the aggregation and the limit. -/
theorem isAnsweredFor_of_isFiltered (h : s.IsFiltered) (checks : AnswerChecks) :
    s.isAnsweredFor checks = ((!checks.order || s.orderBy.isEmpty)
      && (!checks.aggregate || (s.aggregates.isEmpty && s.groupBy.isEmpty))
      && (!checks.limit || s.withinLimit)) := by
  simp only [isAnsweredFor, h.fields, h.eqDone, h.rangeDone, h.joins, h.graph, List.isEmpty_nil,
    Bool.and_true, Bool.true_and]

omit [Scalar α] in
theorem settleGraph_of_joins_nil (h : s.joins = []) : s.settleGraph = s := by
  simp only [settleGraph, h]

theorem IsFiltered.withRows (h : s.IsFiltered) (rows : α) :
    ({ s with rows } : PlanState α).IsFiltered :=
  ⟨⟨h.fields, h.eq, h.range, h.order, h.groups, h.joins, h.graph, h.plain, h.within⟩,
    h.eqDone, h.rangeDone⟩

theorem IsFiltered.sorted (h : s.IsFiltered) :
    ({ s with orderBy := [] } : PlanState α).IsFiltered :=
  ⟨⟨h.fields, h.eq, h.range, rfl, h.groups, h.joins, h.graph, h.plain, h.within⟩,
    h.eqDone, h.rangeDone⟩

end PlanState

namespace Transition

variable (costs : CostModel α) {s : PlanState α}

/-- Conditions that are left are filtered, all at once. -/
theorem filter_of_isLocal (h : s.IsLocal) (hleft : (s.eq.isEmpty && s.range.isEmpty) = false) :
    ∃ next, filter costs s = .ok next ∧ next.step.isFilter = true ∧ next.state.IsFiltered
      ∧ next.state.aggregates = s.aggregates ∧ next.state.groupBy = s.groupBy := by
  have hall : ∀ {fs : FieldSet}, (∀ f ∈ fs.toList, s.isReachable f = true) →
      fs.filter s.isReachable = fs := by
    intro fs hfs
    exact SortedSet.eq_of_toList_eq (List.filter_eq_self.mpr hfs)
  have hnone : ∀ fs : FieldSet, (fs.diff fs).isEmpty = true := by
    intro fs
    refine SortedSet.isEmpty_iff.mpr fun f hf => ?_
    obtain ⟨hmem, hnot⟩ := SortedSet.mem_diff.mp hf
    exact hnot hmem
  have hempty : ∀ {fs : FieldSet} {holds : Field → Prop}, fs.isEmpty = true →
      ∀ f ∈ fs.toList, holds f := by
    intro fs holds hfs f hf
    rw [SortedSet.isEmpty, List.isEmpty_iff] at hfs
    rw [hfs] at hf
    exact nomatch hf
  simp only [filter, h.plain, hall h.eq, hall h.range, hleft, Bool.false_eq_true, if_false]
  rw [PlanState.settleGraph_of_joins_nil]
  · exact ⟨_, rfl, rfl, ⟨⟨h.fields, hempty (hnone s.eq), hempty (hnone s.range), h.order, h.groups,
      h.joins, h.graph, rfl, h.within⟩, hnone s.eq, hnone s.range⟩, rfl, rfl⟩
  · exact h.joins

theorem sort_of_isFiltered (h : s.IsFiltered) (horder : s.orderBy ≠ []) :
    ∃ next, sort costs s = .ok next ∧ next.step.isSort = true
      ∧ next.state = { s with orderBy := [] } := by
  have hne : s.orderBy.isEmpty = false := List.isEmpty_eq_false_iff.mpr horder
  have hanswered := PlanState.isAnsweredFor_of_isFiltered h ⟨false, false, false⟩
  rw [sort, h.plain, hne, h.order, hanswered]
  exact ⟨_, rfl, rfl, rfl⟩

theorem limit_of_isFiltered (h : s.IsFiltered) (horder : s.orderBy = [])
    (hwithin : s.withinLimit = false) :
    ∃ next rows, Transition.limit costs s = .ok next ∧ s.query.limit = some rows
      ∧ next.step.kind = .limit rows ∧ next.state = { s with rows := Scalar.ofCount rows } := by
  have hanswered := PlanState.isAnsweredFor_of_isFiltered h ⟨false, true, false⟩
  rw [horder] at hanswered
  simp only [Transition.limit, h.plain]
  cases hlimit : s.query.limit with
  | none =>
      rw [PlanState.withinLimit, hlimit] at hwithin
      cases hwithin
  | some rows =>
      rw [hwithin, hanswered]
      exact ⟨_, rows, rfl, rfl, rfl, rfl⟩

/-- Groups of rows within the limit are within it, and then nothing is left. -/
theorem aggregate_of_isFiltered (h : s.IsFiltered) (horder : s.orderBy = [])
    (hwithin : s.withinLimit = true)
    (hleft : (s.aggregates.isEmpty && s.groupBy.isEmpty) = false) :
    ∃ next, aggregate costs s = .ok next
      ∧ (∃ aggregates groupBy, next.step.kind = .aggregate aggregates groupBy)
      ∧ next.state.isAnswered = true := by
  have hanswered := PlanState.isAnsweredFor_of_isFiltered h ⟨true, true, false⟩
  rw [horder, hwithin] at hanswered
  simp only [aggregate, h.plain, hleft, h.groups, hanswered, Bool.false_eq_true, if_false]
  refine ⟨_, rfl, ⟨_, _, rfl⟩, ?_⟩
  have hgrouped : s.query.limit.all (fun limit =>
      decide (Selectivity.grouped s.rows s.groupBy.toList ≤ Scalar.ofCount limit)) = true := by
    rcases h.within with hnone | hgroups
    · rw [hleft] at hnone
      exact nomatch hnone
    · rw [PlanState.withinLimit, Option.all_eq_true] at hwithin
      rw [Option.all_eq_true]
      intro limit hlimit
      exact decide_eq_true (hgroups _ limit hlimit (of_decide_eq_true (hwithin limit hlimit)))
  simp only [PlanState.isAnswered, PlanState.isAnsweredFor, PlanState.withinLimit, h.fields,
    h.eqDone, h.rangeDone, h.joins, h.graph, horder, hgrouped]
  rfl

end Transition

/-! ## Chains of successors -/

namespace Planner

variable {p : Planner α} {path : List (Step α)} {t next : Transition α}

/-- The search goes on from `t` by the transitions one after the other, and the last is the first
    to be answered. -/
def Continues (p : Planner α) : List (Step α) → Transition α → List (Transition α) → Prop
  | _, t, [] => t.state.isAnswered = true
  | path, t, next :: rest =>
    t.state.isAnswered = false ∧ next ∈ p.successors path t
      ∧ Continues p (next.step :: path) next rest

/-- The search finds a chain of the given steps that answers the query. -/
def Finishes (p : Planner α) (path : List (Step α)) (t : Transition α) (steps : List (Step α)) :
    Prop :=
  ∃ run, p.Continues path t run ∧ run.map (·.step) = steps

theorem isRun_of_continues (run : List (Transition α)) :
    ∀ path t, p.Continues path t run → p.IsRun path t run := by
  induction run with
  | nil => intro path t h; exact h
  | cons next rest ih =>
      intro path t h
      exact ⟨h.1, follows_of_mem_successors h.2.1, ih _ next h.2.2⟩

/-- To a depth that a chain fits in, the search finds it. -/
theorem mem_continuations_of_continues (run : List (Transition α)) : ∀ path t length,
    p.Continues path t run → run.length ≤ length →
      run ∈ continuations t (p.explore length path t).branches := by
  induction run with
  | nil =>
      intro path t length h _
      rw [continuations_of_answered h]
      exact List.mem_singleton.mpr rfl
  | cons next rest ih =>
      intro path t length h hlength
      rw [List.length_cons] at hlength
      obtain ⟨shorter, rfl⟩ := Nat.exists_eq_add_of_le' (Nat.one_le_of_lt hlength)
      exact cons_mem_continuations h.1 h.2.1
        (ih _ next shorter h.2.2 (Nat.le_of_succ_le_succ hlength))

theorem finishes_nil (h : t.state.isAnswered = true) : p.Finishes path t [] := ⟨[], h, rfl⟩

theorem finishes_cons (hopen : t.state.isAnswered = false) (hnext : next ∈ p.successors path t)
    {steps : List (Step α)} (h : p.Finishes (next.step :: path) next steps) :
    p.Finishes path t (next.step :: steps) := by
  obtain ⟨run, hrun, rfl⟩ := h
  exact ⟨next :: run, ⟨hopen, hnext, hrun⟩, rfl⟩

/-! ## Winding up -/

/-- Rows within the limit are aggregated if need be. -/
theorem exists_aggregate (path : List (Step α)) (h : t.state.IsFiltered)
    (horder : t.state.orderBy = []) (hwithin : t.state.withinLimit = true) :
    ∃ aggregate : Option (Step α), p.Finishes path t aggregate.toList
        ∧ (∀ step ∈ aggregate, ∃ aggregates groupBy, step.kind = .aggregate aggregates groupBy)
        ∧ ((t.state.aggregates.isEmpty && t.state.groupBy.isEmpty) = true → aggregate = none) := by
  have hanswered := PlanState.isAnsweredFor_of_isFiltered h {}
  rw [horder, hwithin] at hanswered
  cases hleft : t.state.aggregates.isEmpty && t.state.groupBy.isEmpty with
  | true =>
      rw [hleft] at hanswered
      exact ⟨none, finishes_nil hanswered, fun step hstep => (nomatch hstep), fun _ => rfl⟩
  | false =>
      rw [hleft] at hanswered
      obtain ⟨next, hnext, hkind, hdone⟩ :=
        Transition.aggregate_of_isFiltered p.costs h horder hwithin hleft
      refine ⟨some next.step, finishes_cons hanswered
        (mem_successors_iff.mpr (.inr (.inr (.inr (.inl hnext))))) (finishes_nil hdone), ?_,
        fun hnone => nomatch hnone⟩
      intro step hstep
      rwa [← Option.some.inj hstep]

/-- Rows are cut off if need be, and then aggregated. -/
theorem exists_limit [Scalar.CountsCompare α] (path : List (Step α)) (h : t.state.IsFiltered)
    (horder : t.state.orderBy = []) : ∃ limit aggregate : Option (Step α),
      p.Finishes path t (limit.toList ++ aggregate.toList)
        ∧ (∀ step ∈ limit, ∃ rows, step.kind = .limit rows)
        ∧ (∀ step ∈ aggregate, ∃ aggregates groupBy, step.kind = .aggregate aggregates groupBy)
        ∧ ((t.state.aggregates.isEmpty && t.state.groupBy.isEmpty) = true → aggregate = none) := by
  cases hwithin : t.state.withinLimit with
  | true =>
      obtain ⟨aggregate, hfinishes, hlast⟩ := exists_aggregate (p := p) path h horder hwithin
      exact ⟨none, aggregate, hfinishes, fun step hstep => (nomatch hstep), hlast⟩
  | false =>
      have hopen : t.state.isAnswered = false := by
        rw [PlanState.isAnswered, PlanState.isAnsweredFor_of_isFiltered h, hwithin]
        exact Bool.and_false _
      obtain ⟨next, rows, hnext, hlimit, hkind, hstate⟩ :=
        Transition.limit_of_isFiltered p.costs h horder hwithin
      have hfiltered : next.state.IsFiltered := by
        rw [hstate]
        exact h.withRows _
      have hnextWithin : next.state.withinLimit = true := by
        -- a count of rows is within itself
        rw [hstate, PlanState.withinLimit]
        show (t.state.query.limit.all fun n =>
          decide (Scalar.ofCount rows ≤ Scalar.ofCount n)) = true
        rw [hlimit]
        exact decide_eq_true (Scalar.CountsCompare.ofCount_le rows)
      obtain ⟨aggregate, hfinishes, hlast, hnone⟩ := exists_aggregate (p := p)
        (next.step :: path) hfiltered (by rw [hstate]; exact horder) hnextWithin
      rw [hstate] at hnone
      refine ⟨some next.step, aggregate, finishes_cons hopen
        (mem_successors_iff.mpr (.inr (.inr (.inl hnext)))) hfinishes, ?_, hlast, hnone⟩
      intro step hstep
      rw [← Option.some.inj hstep]
      exact ⟨rows, hkind⟩

/-- Rows are sorted if need be, and then cut off. -/
theorem exists_sort [Scalar.CountsCompare α] (path : List (Step α)) (h : t.state.IsFiltered) :
    ∃ sort limit aggregate : Option (Step α),
      p.Finishes path t (sort.toList ++ limit.toList ++ aggregate.toList)
        ∧ (∀ step ∈ sort, step.isSort = true)
        ∧ (∀ step ∈ limit, ∃ rows, step.kind = .limit rows)
        ∧ (∀ step ∈ aggregate, ∃ aggregates groupBy, step.kind = .aggregate aggregates groupBy)
        ∧ ((t.state.aggregates.isEmpty && t.state.groupBy.isEmpty) = true → aggregate = none) := by
  by_cases horder : t.state.orderBy = []
  · obtain ⟨limit, aggregate, hfinishes, hkinds⟩ := exists_limit (p := p) path h horder
    exact ⟨none, limit, aggregate, hfinishes, fun step hstep => (nomatch hstep), hkinds⟩
  · have hopen : t.state.isAnswered = false := by
      rw [PlanState.isAnswered, PlanState.isAnsweredFor_of_isFiltered h,
        List.isEmpty_eq_false_iff.mpr horder]
      rfl
    obtain ⟨next, hnext, hsort, hstate⟩ := Transition.sort_of_isFiltered p.costs h horder
    have hfiltered : next.state.IsFiltered := by
      rw [hstate]
      exact h.sorted
    obtain ⟨limit, aggregate, hfinishes, hlimit, hlast, hnone⟩ := exists_limit (p := p)
      (next.step :: path) hfiltered (by rw [hstate])
    rw [hstate] at hnone
    refine ⟨some next.step, limit, aggregate, finishes_cons hopen
      (mem_successors_iff.mpr (.inr (.inl hnext))) hfinishes, ?_, hlimit, hlast, hnone⟩
    intro step hstep
    rw [← Option.some.inj hstep]
    exact hsort

/-- **WORK IN MEMORY ENDS**: where only work in memory is left, the search goes on by a filter, a
    sort, a limit and an aggregation, each if need be, to an answered state. -/
theorem finishes_of_isLocal [Scalar.CountsCompare α] (path : List (Step α)) (h : t.state.IsLocal) :
    ∃ (finish : List (Step α)) (aggregate : Option (Step α)),
      p.Finishes path t (finish ++ aggregate.toList) ∧ IsFinish finish
        ∧ (∀ step ∈ aggregate, ∃ aggregates groupBy, step.kind = .aggregate aggregates groupBy)
        ∧ ((t.state.aggregates.isEmpty && t.state.groupBy.isEmpty) = true → aggregate = none) := by
  cases hdone : t.state.eq.isEmpty && t.state.range.isEmpty with
  | true =>
      obtain ⟨heq, hrange⟩ := (Bool.and_eq_true _ _).mp hdone
      obtain ⟨sort, limit, aggregate, hfinishes, hsort, hlimit, hlast⟩ :=
        exists_sort (p := p) path ⟨h, heq, hrange⟩
      exact ⟨_, aggregate, hfinishes,
        ⟨none, sort, limit, rfl, fun step hstep => (nomatch hstep), hsort, hlimit⟩, hlast⟩
  | false =>
      have hopen : t.state.isAnswered = false := by
        refine Bool.eq_false_iff.mpr fun hanswered => ?_
        have hnone := PlanState.isDone_of_isAnsweredFor hanswered
        rw [hnone.eq, hnone.range] at hdone
        exact nomatch hdone
      obtain ⟨next, hnext, hfilter, hfiltered, haggregates, hgroupBy⟩ :=
        Transition.filter_of_isLocal p.costs h hdone
      obtain ⟨sort, limit, aggregate, hfinishes, hsort, hlimit, hlast, hnone⟩ :=
        exists_sort (p := p) (next.step :: path) hfiltered
      rw [haggregates, hgroupBy] at hnone
      refine ⟨next.step :: (sort.toList ++ limit.toList), aggregate,
        finishes_cons hopen (mem_successors_iff.mpr (.inl hnext)) hfinishes,
        ⟨some next.step, sort, limit, rfl, ?_, hsort, hlimit⟩, hlast, hnone⟩
      intro step hstep
      rw [← Option.some.inj hstep]
      exact hfilter

end Planner

end IndexDesign
