import IndexDesign.Proofs.Plan.Joins
import IndexDesign.Proofs.Plan.Unfiltered
import IndexDesign.Proofs.Exact
import IndexDesign.Selection.Attribution

/-! # Attribution never contradicts itself on planned trees

    Costs contradict where two plans without filters take the same steps up to
    a lookup of one index and yet charge it differently.  The part of a plan
    that is charged to an index is the lookup alone, or the lookup and the
    steps in memory to the end where nothing is left to visit behind it.  Both
    are determined by the steps before and the index, so the charges are
    equal.  What is left to disagree about is dropped and is no error. -/

namespace IndexDesign

variable {α : Type}

/-! ## Where the parts of a run begin -/

theorem splitAtLookups_cons_lookup {step : Step α} {index : Index} {steps : List (Step α)}
    (h : step.lookedUp? = some index) : splitAtLookups (step :: steps)
      = ([], (index, step :: (splitAtLookups steps).1) :: (splitAtLookups steps).2) := by
  simp only [splitAtLookups, h]

theorem splitAtLookups_cons_inMemory {step : Step α} {steps : List (Step α)}
    (h : step.lookedUp? = none) : splitAtLookups (step :: steps)
      = (step :: (splitAtLookups steps).1, (splitAtLookups steps).2) := by
  simp only [splitAtLookups, h]

/-- Every part begins with the lookup of its index and goes on to the next lookup. -/
theorem exists_of_mem_runsFrom (run : List (Transition α)) :
    ∀ start, ∀ r ∈ runsFrom (start + (splitAtLookups (run.map (·.step))).1.length)
        (splitAtLookups (run.map (·.step))).2,
      ∃ before next after, run = before ++ next :: after ∧ next.step.lookedUp? = some r.index
        ∧ r.start = start + before.length
        ∧ r.steps = next.step :: (splitAtLookups (after.map (·.step))).1 := by
  induction run with
  | nil => intro start r hr; exact nomatch hr
  | cons first rest ih =>
      intro start r hr
      rw [List.map_cons] at hr
      have hlater : r ∈ runsFrom (start + 1 + (splitAtLookups (rest.map (·.step))).1.length)
          (splitAtLookups (rest.map (·.step))).2 →
            ∃ before next after, first :: rest = before ++ next :: after
              ∧ next.step.lookedUp? = some r.index ∧ r.start = start + before.length
              ∧ r.steps = next.step :: (splitAtLookups (after.map (·.step))).1 := by
        intro hr
        obtain ⟨before, next, after, hrun, hindex, hstart, hsteps⟩ := ih _ r hr
        refine ⟨first :: before, next, after, by rw [hrun, List.cons_append], hindex, ?_, hsteps⟩
        rw [hstart, List.length_cons]
        omega
      cases hindex : first.step.lookedUp? with
      | none =>
          rw [splitAtLookups_cons_inMemory hindex, List.length_cons] at hr
          refine hlater ?_
          rwa [Nat.add_assoc, Nat.add_comm 1]
      | some index =>
          rw [splitAtLookups_cons_lookup hindex] at hr
          rcases List.mem_cons.mp hr with rfl | hr
          · exact ⟨[], first, rest, rfl, hindex, rfl, rfl⟩
          · refine hlater ?_
            rwa [List.length_cons, List.length_nil, Nat.add_zero, Nat.add_comm _ 1,
              ← Nat.add_assoc] at hr

namespace Planner

variable [Scalar α] {p : Planner α} {path : List (Step α)} {t : Transition α} {q : Query α}

/-! ## The parts of runs without filters -/

theorem parts_eq_nil_of_joins (run : List (Transition α)) :
    ∀ path t, p.IsRun path t run → IsUnfiltered run → t.state.joins = [] →
      (splitAtLookups (run.map (·.step))).2 = [] := by
  induction run with
  | nil => intro path t _ _ _; rfl
  | cons next rest ih =>
      intro path t hrun hfree hjoins
      obtain ⟨-, hfollows, hrest⟩ := hrun
      obtain ⟨hnext, hrestFree⟩ := isUnfiltered_cons.mp hfree
      have hnone := not_lookup_of_joins_nil hjoins hfollows
      rw [List.map_cons, splitAtLookups_cons_inMemory hnone]
      exact ih _ next hrest hrestFree (joins_of_follows hfollows hnone hnext).2

/-- While there is something to visit, the next step is a lookup. -/
theorem front_eq_nil_of_joins {run : List (Transition α)} (hrun : p.IsRun path t run)
    (hfree : IsUnfiltered run) (hjoins : t.state.joins ≠ []) :
    (splitAtLookups (run.map (·.step))).1 = [] := by
  cases run with
  | nil => rfl
  | cons next rest =>
      cases hindex : next.step.lookedUp? with
      | some index => rw [List.map_cons, splitAtLookups_cons_lookup hindex]
      | none =>
          have hnext := (isUnfiltered_cons.mp hfree).1
          exact absurd (joins_of_follows hrun.2.1 hindex hnext).1 hjoins

theorem front_eq_nil_of_append {before after : List (Transition α)} {next : Transition α}
    (hrun : p.IsRunOf q (before ++ next :: after)) (hfree : IsUnfiltered (before ++ next :: after))
    (hjoins : next.state.joins ≠ []) : (splitAtLookups (after.map (·.step))).1 = [] := by
  obtain ⟨path, t, -, -, hafter⟩ := exists_of_isRun_append (fun _ _ => True)
    (fun _ _ => trivial) before [] (Transition.start q) trivial hrun
  refine front_eq_nil_of_joins hafter (fun later hlater => ?_) hjoins
  exact hfree later (List.mem_append_right _ (List.mem_cons_of_mem _ hlater))

/-- Without filters, the parts of a plan begin with the lookups of its indexes. -/
theorem exists_of_mem_runs {run : List (Transition α)} (hrun : p.IsRunOf q run)
    (hfree : IsUnfiltered run) {r : PlanRun α} (hr : r ∈ (planOf q run).runs) :
    ∃ before next after, run = before ++ next :: after ∧ next.step.lookedUp? = some r.index
      ∧ r.start = before.length
      ∧ r.steps = next.step :: (splitAtLookups (after.map (·.step))).1 := by
  -- no part is charged for steps before its lookup: a run begins with one, or has none
  have hparts : r ∈ runsFrom (0 + (splitAtLookups (run.map (·.step))).1.length)
      (splitAtLookups (run.map (·.step))).2 := by
    by_cases hjoins : (Transition.start q).state.joins = []
    · rw [Plan.runs, planOf] at hr
      split at hr
      · cases hr
      · next hsplit =>
        have hnil := parts_eq_nil_of_joins run _ _ hrun hfree hjoins
        rw [hsplit] at hnil
        cases hnil
    · have hfront := front_eq_nil_of_joins hrun hfree hjoins
      rw [Plan.runs, planOf] at hr
      split at hr
      · cases hr
      · next front index steps parts hsplit =>
        rw [hsplit] at hfront ⊢
        have hnil : front = [] := hfront
        subst hnil
        exact hr
  obtain ⟨before, next, after, hsplit, hindex, hstart, hsteps⟩ :=
    exists_of_mem_runsFrom run 0 r hparts
  exact ⟨before, next, after, hsplit, hindex, by rw [hstart, Nat.zero_add], hsteps⟩

theorem isUnfiltered_of_hasFilter {run : List (Transition α)}
    (h : (planOf q run).hasFilter = false) : IsUnfiltered run := by
  simp only [Plan.hasFilter, planOf, List.any_map, List.any_eq_false] at h
  intro next hnext
  exact Bool.eq_false_iff.mpr (h next hnext)

/-- **CHARGES AGREE**: plans without filters that take the same steps before a lookup of indexes
    of one key charge the same steps to it. -/
theorem steps_eq_of_same_steps (hnodup : (p.pool.map (·.key)).Nodup)
    {run run' : List (Transition α)} (hrun : p.IsRunOf q run) (hrun' : p.IsRunOf q run')
    (hfree : (planOf q run).hasFilter = false) (hfree' : (planOf q run').hasFilter = false)
    {r r' : PlanRun α} (hr : r ∈ (planOf q run).runs) (hr' : r' ∈ (planOf q run').runs)
    (hkey : r.index.key = r'.index.key)
    (hsame : ((planOf q run).steps.take r.start == (planOf q run').steps.take r'.start) = true) :
    r.steps = r'.steps := by
  have hunfiltered := isUnfiltered_of_hasFilter hfree
  have hunfiltered' := isUnfiltered_of_hasFilter hfree'
  obtain ⟨before, a, after, rfl, hindex, hstart, hsteps⟩ := exists_of_mem_runs hrun hunfiltered hr
  obtain ⟨before', b, after', rfl, hindex', hstart', hsteps'⟩ :=
    exists_of_mem_runs hrun' hunfiltered' hr'
  have hprefix : (before.map (·.step) == before'.map (·.step)) = true := by
    simpa [planOf, hstart, hstart'] using hsame
  obtain ⟨heq, hafter⟩ := eq_of_same_steps hnodup before before' [] _ hrun hrun' hunfiltered
    hunfiltered' hprefix hindex hindex' hkey
  subst heq
  rw [hsteps, hsteps']
  by_cases hjoins : a.state.joins = []
  · rw [hafter hjoins]
  -- with something left to visit, either part is the lookup alone
  · rw [front_eq_nil_of_append hrun hunfiltered hjoins,
      front_eq_nil_of_append hrun' hunfiltered' hjoins]

end Planner

/-! ## Costs that agree -/

namespace StatementCosts

open Planner (topicIndex cityUsersIndex messagesIndex cityTopicsQuery)

theorem exists_of_entryOf? {c : StatementCosts α} {index : Index} {e : CostEntry α}
    (h : c.entryOf? index = some e) :
    ∃ plan ∈ c.plans, e ∈ entriesOf plan ∧ e.run.index.key = index.key := by
  simp only [entryOf?] at h
  obtain ⟨plan, hplan, hfound⟩ := List.exists_of_findSome?_eq_some h
  have hkey := List.find?_some hfound
  exact ⟨plan, hplan, List.mem_of_find?_eq_some hfound, eq_of_beq hkey⟩

/-- The entry of an index is that in the table. -/
theorem entryOf?_eq_find?_table (c : StatementCosts α) (index : Index) :
    c.entryOf? index = c.table.find? [index.key] := by
  rw [table, SortedSet.find?_extend_empty, List.find?_flatMap, entryOf?]
  congr 1
  funext p
  congr 1
  funext e
  simp [key]

/-- The entry of an index is that of the first run for it in its plan. -/
theorem find?_runs_of_entryOf? {c : StatementCosts α} {index : Index} {e : CostEntry α}
    (h : c.entryOf? index = some e) :
    e.plan.runs.find? (·.index.key == index.key) = some e.run := by
  rw [entryOf?] at h
  obtain ⟨p, -, hfound⟩ := List.exists_of_findSome?_eq_some h
  rw [entriesOf, List.find?_map, Option.map_eq_some_iff] at hfound
  obtain ⟨run, hrun, rfl⟩ := hfound
  exact hrun

theorem of_conflict? [Scalar α] {tolerance : α} {c : StatementCosts α} {plan : Plan α}
    {existing found : CostEntry α} (h : c.conflict? tolerance plan = some (existing, found)) :
    found ∈ entriesOf plan ∧ c.entryOf? found.run.index = some existing
      ∧ agree tolerance existing.cost found.cost = false := by
  simp only [conflict?] at h
  obtain ⟨e, he, hconflict⟩ := List.exists_of_findSome?_eq_some h
  obtain ⟨entry, hentry, hdisagree⟩ := Option.bind_eq_some_iff.mp hconflict
  split at hdisagree
  · exact nomatch hdisagree
  · next hagree =>
    obtain ⟨rfl, rfl⟩ := Prod.mk.inj (Option.some.inj hdisagree)
    exact ⟨he, hentry, Bool.eq_false_iff.mpr hagree⟩

/-- A cost agrees with itself. -/
theorem agree_self {tolerance : Rat} (htolerance : 0 ≤ tolerance) (x : Rat) :
    agree tolerance x x = true := by
  simp only [agree, Scalar.abs_rat, Scalar.max_rat, Scalar.one_rat, sub_self, abs_zero,
    decide_eq_true_eq]
  exact mul_nonneg htolerance (le_max_of_le_right zero_le_one)

/-- Two entries of plans do not contradict each other: where neither plan filters and both take
    the same steps up to lookups of one key, their costs are equal. -/
def IsConsistent [Scalar α] (plans : List (Plan α)) : Prop :=
  ∀ plan ∈ plans, ∀ plan' ∈ plans, ∀ e ∈ entriesOf plan, ∀ e' ∈ entriesOf plan',
    e.run.index.key = e'.run.index.key → isContradiction e e' = true → e.cost = e'.cost

/-- Consistent plans are taken into account one after the other, without an error. -/
theorem foldlM_absorb_eq_ok {tolerance : Rat} (htolerance : 0 ≤ tolerance)
    {all : List (Plan Rat)} (hall : IsConsistent all) (plans : List (Plan Rat)) :
    ∀ c : StatementCosts Rat, (∀ plan ∈ c.plans, plan ∈ all) → (∀ plan ∈ plans, plan ∈ all) →
      ∃ costs, plans.foldlM (absorb tolerance) c = .ok costs := by
  induction plans with
  | nil => intro c _ _; exact ⟨c, rfl⟩
  | cons plan plans ih =>
      intro c hc hplans
      obtain ⟨hplan, hplans⟩ := List.forall_mem_cons.mp hplans
      have habsorb : ∃ c', absorb tolerance c plan = .ok c' ∧ ∀ plan ∈ c'.plans, plan ∈ all := by
        simp only [absorb]
        split
        · refine ⟨_, rfl, fun other hother => ?_⟩
          rcases List.mem_append.mp hother with hother | hother
          · exact hc other hother
          · rw [List.mem_singleton.mp hother]
            exact hplan
        · next existing found hconflict =>
          obtain ⟨hfound, hentry, hdisagree⟩ := of_conflict? hconflict
          obtain ⟨other, hother, hexisting, hkey⟩ := exists_of_entryOf? hentry
          by_cases hcontradicts : isContradiction existing found = true
          -- entries that contradict each other have one cost, so they agree
          · have hcost := hall other (hc other hother) plan hplan existing hexisting found hfound
              hkey hcontradicts
            rw [hcost, agree_self htolerance] at hdisagree
            exact nomatch hdisagree
          · rw [if_neg hcontradicts]
            exact ⟨_, rfl, hc⟩
      obtain ⟨c', hc', hmem⟩ := habsorb
      rw [List.foldlM_cons, hc']
      exact ih c' hmem hplans

/-- Planned trees are consistent. -/
theorem isConsistent_of_plan [Scalar α] [Rendered α] {p : Planner α} {q : Query α}
    (hnodup : (p.pool.map (·.key)).Nodup) {tree : PlanTree α} (h : p.plan q = .ok tree) :
    IsConsistent tree.plans := by
  intro plan hplan plan' hplan' e he e' he' hkey hcontradicts
  obtain ⟨run, -, rfl, hisRun⟩ := Planner.exists_run_of_mem_plans h hplan
  obtain ⟨run', -, rfl, hisRun'⟩ := Planner.exists_run_of_mem_plans h hplan'
  have hquery := (Planner.rules_of_isRun run _ _ hisRun).1
  have hquery' := (Planner.rules_of_isRun run' _ _ hisRun').1
  obtain ⟨r, hr, rfl⟩ := List.mem_map.mp he
  obtain ⟨r', hr', rfl⟩ := List.mem_map.mp he'
  simp only [isContradiction, Bool.and_eq_true, Bool.not_eq_true'] at hcontradicts
  obtain ⟨⟨hfree, hfree'⟩, hsame⟩ := hcontradicts
  have hsteps := Planner.steps_eq_of_same_steps hnodup hisRun hisRun' hfree hfree' hr hr' hkey
    hsame
  show Scalar.sum (r.charged.map _) * (Planner.planOf q run).query.weight
    = Scalar.sum (r'.charged.map _) * (Planner.planOf q run').query.weight
  rw [PlanRun.charged, PlanRun.charged, hsteps, Plan.query, Plan.query, Planner.planOf,
    Planner.planOf, hquery, hquery']

/-- **PLANNED COSTS ARE CONSISTENT**: in exact numbers and for any tolerance, the plans of a tree
    that is returned are taken into account without an error; plans without filters that take
    the same steps before a lookup of one index attribute the same cost to it. -/
theorem ofTree_consistent {indexes : List Index} (hkeys : Index.KeysDistinct indexes)
    (costs : CostModel Rat) (config : PlanningConfig Rat) {q : Query Rat} {tree : PlanTree Rat}
    (h : (Planner.ofIndexes indexes costs config).plan q = .ok tree) {tolerance : Rat}
    (htolerance : 0 ≤ tolerance) :
    (∃ agreed, ofTree tolerance tree = .ok agreed) ∧ IsConsistent tree.plans := by
  have hconsistent := isConsistent_of_plan (Index.nodup_keys_pool hkeys) h
  refine ⟨?_, hconsistent⟩
  refine foldlM_absorb_eq_ok htolerance hconsistent _ _ (fun plan hplan => nomatch hplan) ?_
  intro plan hplan
  exact List.mem_mergeSort.mp hplan

/-! ## The topics of a city

    The users of a city come from one index, and two others find the messages
    of a user.  Both plans begin with the same lookup. -/

/-- The query has two plans without filters, and their costs are consistent. -/
theorem ofTree_consistent_topics :
    Index.KeysDistinct [cityUsersIndex, messagesIndex, topicIndex] ∧ (0 : Rat) ≤ 1 / 1000
      ∧ ∃ tree, (Planner.ofIndexes [cityUsersIndex, messagesIndex, topicIndex] .requestCount
          {}).plan cityTopicsQuery = .ok tree
        ∧ (tree.plans.map (·.hasFilter)) = [false, false]
        ∧ (∃ agreed, ofTree (1 / 1000) tree = .ok agreed) ∧ IsConsistent tree.plans := by
  have hkeys : Index.KeysDistinct [cityUsersIndex, messagesIndex, topicIndex] := by
    show ∀ i ∈ _, ∀ j ∈ _, _ → _
    decide +kernel
  have htolerance : (0 : Rat) ≤ 1 / 1000 := by norm_num
  have hplanned : ((Planner.ofIndexes [cityUsersIndex, messagesIndex, topicIndex]
      (.requestCount : CostModel Rat) {}).plan cityTopicsQuery).toOption.any
        (·.plans.map (·.hasFilter) == [false, false]) = true := by decide +kernel
  obtain ⟨tree, htree, hplans⟩ := Option.any_eq_true _ _ |>.mp hplanned
  have hok := Planner.toOption_eq_some_iff.mp htree
  exact ⟨hkeys, htolerance, tree, hok, eq_of_beq hplans,
    ofTree_consistent hkeys .requestCount {} hok htolerance⟩

end StatementCosts

end IndexDesign
