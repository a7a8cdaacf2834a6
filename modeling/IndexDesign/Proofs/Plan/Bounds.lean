import IndexDesign.Proofs.Exact
import IndexDesign.Proofs.Plan.Joins
import IndexDesign.Proofs.Plan.LargerPool

/-! # Bounds on plans are filters

    A planner can be bounded in two ways.  The bound on lookups acts during
    the search: a branch that has all the lookups it may have only goes on in
    memory.  The bound on costs acts on the tree afterwards, against the
    cheapest of the plans that are left.

    Neither loses or makes plans on the side.  A run within the bound on
    lookups meets it at no lookup, so the bounded search lists the runs of the
    unbounded one that are within it, in the same order; and dropping plans
    from a tree leaves the others as they are.  So the plans of a bounded
    planner are those of the unbounded one that keep within the bounds, and
    planning fails where none does. -/

namespace IndexDesign

variable {α : Type}

/-! ## Dropping plans -/

/-- The plans that stay are those that pass the test. -/
theorem Forest.plans_retain (f : Forest α) (keep : Plan α → Bool) :
    ∀ path, (f.retain keep path).plans path = (f.plans path).filter keep := by
  induction f with
  | empty => intro path; rfl
  | branch first onward beside ihOnward ihBeside =>
      intro path
      simp only [retain, plans, List.filter_append, ← ihBeside path]
      by_cases hempty : onward.isEmpty = true
      · rw [if_pos hempty, if_pos hempty]
        cases onward with
        | branch => cases hempty
        | empty =>
            by_cases hkeep : keep ⟨path ++ [first.step], first.state⟩ = true
            · rw [if_pos hkeep, List.filter_cons_of_pos hkeep]
              rfl
            · rw [if_neg hkeep, List.filter_cons_of_neg hkeep]
              rfl
      · rw [if_neg hempty, if_neg hempty, ← ihOnward (path ++ [first.step])]
        cases honward : onward.retain keep (path ++ [first.step]) with
        | empty => rfl
        | branch => rfl

theorem PlanTree.plans_retain (tree : PlanTree α) (keep : Plan α → Bool) :
    (tree.retain keep).plans = tree.plans.filter keep :=
  tree.branches.plans_retain keep []

/-- A lookup is a step that looks up an index. -/
theorem Step.isLookup_eq (step : Step α) : step.isLookup = step.lookedUp?.isSome := by
  rw [isLookup, lookedUp?]
  cases step.kind with
  | lookup => rfl
  | _ => rfl

namespace Planner

variable [Scalar α] {p : Planner α} {path : List (Step α)} {t next : Transition α} {q : Query α}

/-! ## The bound on lookups -/

/-- The planner without bounds. -/
def unbounded (p : Planner α) : Planner α :=
  { p with config := { p.config with maxLookups := none, costRatio := none } }

/-- The number of lookups keeps within the bound, if there is one. -/
def allowsLookups (p : Planner α) (lookups : Nat) : Bool :=
  p.config.maxLookups.all fun most => decide (lookups ≤ most)

omit [Scalar α] in
theorem allowsLookups_iff {lookups : Nat} : p.allowsLookups lookups = true
    ↔ ∀ most, p.config.maxLookups = some most → lookups ≤ most := by
  simp only [allowsLookups, Option.all_eq_true, decide_eq_true_eq]

/-- What follows within the bound follows without it, and a lookup leaves the branch within it. -/
theorem follows_iff (hpath : p.allowsLookups (path.countP (·.isLookup)) = true) :
    p.Follows path t next ↔ p.unbounded.Follows path t next
      ∧ p.allowsLookups ((next.step :: path).countP (·.isLookup)) = true := by
  have hmemory : Transition.IsInMemory t.state next →
      p.allowsLookups ((next.step :: path).countP (·.isLookup)) = true := by
    intro hmemory
    have hnot : ¬ next.step.isLookup = true := by
      rw [Step.isLookup_eq, hmemory.lookedUp]
      exact Bool.false_ne_true
    rwa [List.countP_cons_of_neg hnot]
  constructor
  · intro h
    cases h with
    | filter h => exact ⟨.filter h, hmemory (Transition.isInMemory_filter h)⟩
    | sort h => exact ⟨.sort h, hmemory (Transition.isInMemory_sort h)⟩
    | limit h => exact ⟨.limit h, hmemory (Transition.isInMemory_limit h)⟩
    | aggregate h => exact ⟨.aggregate h, hmemory (Transition.isInMemory_aggregate h)⟩
    | lookup index hpool hunused hmore h =>
        obtain ⟨covered, hlookup⟩ := Transition.lookup_spec h
        refine ⟨.lookup index hpool hunused (fun _ hnone => nomatch hnone) h,
          allowsLookups_iff.mpr fun most hmost => ?_⟩
        rw [List.countP_cons_of_pos (by rw [Step.isLookup_eq, hlookup.lookedUp]; rfl)]
        exact hmore most hmost
  · rintro ⟨h, hnext⟩
    cases h with
    | filter h => exact .filter h
    | sort h => exact .sort h
    | limit h => exact .limit h
    | aggregate h => exact .aggregate h
    | lookup index hpool hunused _ h =>
        refine .lookup index hpool hunused (fun most hmost => ?_) h
        obtain ⟨covered, hlookup⟩ := Transition.lookup_spec h
        have hle := allowsLookups_iff.mp hnext most hmost
        rw [List.countP_cons_of_pos (by rw [Step.isLookup_eq, hlookup.lookedUp]; rfl)] at hle
        exact hle

/-- **RUNS WITHIN THE BOUND** are the runs without it that keep within it. -/
theorem isRun_iff (run : List (Transition α)) :
    ∀ path t, p.allowsLookups (path.countP (·.isLookup)) = true →
      (p.IsRun path t run ↔ p.unbounded.IsRun path t run
        ∧ p.allowsLookups (((run.map (·.step)).reverse ++ path).countP (·.isLookup)) = true) := by
  induction run with
  | nil =>
      intro path t hpath
      exact ⟨fun h => ⟨h, hpath⟩, fun h => h.1⟩
  | cons next rest ih =>
      intro path t hpath
      rw [List.map_cons, List.reverse_cons, List.append_assoc, List.singleton_append]
      constructor
      · rintro ⟨hopen, hfollows, hrest⟩
        obtain ⟨hfree, hnext⟩ := (follows_iff hpath).mp hfollows
        obtain ⟨hfreeRest, hall⟩ := (ih _ next hnext).mp hrest
        exact ⟨⟨hopen, hfree, hfreeRest⟩, hall⟩
      · rintro ⟨⟨hopen, hfree, hfreeRest⟩, hall⟩
        -- what the whole run keeps to, its first step does
        have hnext : p.allowsLookups ((next.step :: path).countP (·.isLookup)) = true := by
          refine allowsLookups_iff.mpr fun most hmost => ?_
          have hle := allowsLookups_iff.mp hall most hmost
          rw [List.countP_append] at hle
          omega
        exact ⟨hopen, (follows_iff hpath).mpr ⟨hfree, hnext⟩,
          (ih _ next hnext).mpr ⟨hfreeRest, hall⟩⟩

/-- **THE BOUND ON LOOKUPS IS A FILTER**: the bounded search lists the runs of the unbounded one
    that keep within the bound. -/
theorem runs_search_bounded [Scalar.CountsCompare α] (hkeys : Index.KeysDistinct p.pool)
    (hsorted : p.IsSorted) (q : Query α) : (p.search q).branches.runs
      = (p.unbounded.search q).branches.runs.filter fun run =>
          p.allowsLookups ((run.map (·.step)).countP (·.isLookup)) := by
  cases hopen : (Transition.start q).state.isAnswered with
  | true =>
      rw [runs_search_of_answered hopen, runs_search_of_answered hopen]
      rfl
  | false =>
      refine List.Pairwise.eq_of_mem_iff (pairwise_runs_search hsorted hopen)
        ((pairwise_runs_search (p := p.unbounded) hsorted hopen).filter _) fun run => ?_
      have hstart : p.allowsLookups (([] : List (Step α)).countP (·.isLookup)) = true :=
        allowsLookups_iff.mpr fun most _ => Nat.zero_le most
      rw [List.mem_filter, mem_runs_search_iff hkeys hopen,
        mem_runs_search_iff (p := p.unbounded) hkeys hopen]
      refine (isRun_iff run [] (Transition.start q) hstart).trans ?_
      rw [List.append_nil, List.countP_reverse]
      rfl

/-- The plans before the bound on costs are the unbounded ones within the bound on lookups. -/
theorem plans_search_bounded [Scalar.CountsCompare α] (hkeys : Index.KeysDistinct p.pool)
    (hsorted : p.IsSorted) (q : Query α) : (p.search q).plans
      = (p.unbounded.search q).plans.filter fun plan =>
          p.allowsLookups (plan.steps.countP (·.isLookup)) := by
  rw [plans_eq_map_planOf _ q, plans_eq_map_planOf _ q, runs_search_bounded hkeys hsorted,
    List.filter_map]
  rfl

/-! ## What planning returns -/

section Refined

variable [Rendered α]

/-- Every plan that the search finds is valid. -/
theorem retain_valid_search (p : Planner α) (q : Query α) :
    (p.search q).retain (·.fault?.isNone) = p.search q := by
  rw [PlanTree.retain, Forest.retain_eq_self]
  intro plan hplan
  have hplan : plan ∈ (p.search q).plans := hplan
  rw [plans_eq_map_planOf _ q] at hplan
  obtain ⟨run, hrun, rfl⟩ := List.mem_map.mp hplan
  rw [fault?_planOf (isRunOf_of_mem_runs hrun)]
  rfl

omit [Scalar α] [Rendered α] in
theorem isEmpty_iff_plans {tree : PlanTree α} : tree.isEmpty = true ↔ tree.plans = [] := by
  rw [PlanTree.isEmpty, ← Forest.runs_eq_nil_iff, PlanTree.plans,
    Forest.plans_eq _ _ tree.root, List.map_eq_nil_iff]

theorem query_refine (p : Planner α) (tree : PlanTree α) : (p.refine tree).query = tree.query := by
  simp only [refine]
  cases p.config.costRatio with
  | none => rfl
  | some ratio =>
      simp only [Option.elim, PlanTree.prunedByCostRatio]
      split
      · rfl
      · rfl

/-- Planning fails where no plan is left, and otherwise returns the plans that are left. -/
theorem plan_cases (p : Planner α) (q : Query α) :
    (p.refine (p.search q)).plans = []
        ∧ (∃ tree, p.plan q = .error (.noPlanFound q.text tree))
      ∨ (p.refine (p.search q)).plans ≠ [] ∧ p.plan q = .ok (p.refine (p.search q)) := by
  have hquery : (p.refine (p.search q)).query = q := p.query_refine _
  by_cases hfound : (p.search q).isEmpty = true
  · refine .inl ⟨?_, _, plan_of_isEmpty hfound⟩
    have hsub := runs_refine_sublist p (p.search q)
    rw [(Forest.runs_eq_nil_iff _).mpr hfound, List.sublist_nil, Forest.runs_eq_nil_iff] at hsub
    exact isEmpty_iff_plans.mp hsub
  · have hplan : p.plan q = orNoPlan (p.refine (p.search q)) := by
      rw [plan, orNoPlan, if_neg hfound]
      rfl
    rw [hplan, orNoPlan, ← isEmpty_iff_plans, hquery]
    by_cases hleft : (p.refine (p.search q)).isEmpty = true
    · rw [if_pos hleft]
      exact .inl ⟨hleft, _, rfl⟩
    · rw [if_neg hleft]
      exact .inr ⟨fun hnil => hleft (isEmpty_iff_plans.mpr hnil), rfl⟩

theorem plansOf_eq_refine (p : Planner α) (q : Query α) :
    p.plansOf q = (p.refine (p.search q)).plans := by
  rcases p.plan_cases q with ⟨hnil, tree, hplan⟩ | ⟨-, hplan⟩
  · rw [plansOf, hplan, hnil]
  · rw [plansOf, hplan]

/-- Planning fails exactly where there are no plans. -/
theorem plan_fails_iff (p : Planner α) (q : Query α) :
    (∃ tree, p.plan q = .error (.noPlanFound q.text tree)) ↔ p.plansOf q = [] := by
  rw [plansOf_eq_refine]
  rcases p.plan_cases q with ⟨hnil, hplan⟩ | ⟨hne, hplan⟩
  · exact ⟨fun _ => hnil, fun _ => hplan⟩
  · refine ⟨?_, fun hnil => absurd hnil hne⟩
    rintro ⟨tree, hfails⟩
    rw [hplan] at hfails
    exact nomatch hfails

end Refined

end Planner

/-! ## The bound on costs -/

/-- The plans that cost at most so many times the least. -/
def withinRatio (ratio : Rat) (plans : List (Plan Rat)) : List (Plan Rat) :=
  plans.filter fun plan => (plans.map (·.cost)).min?.any fun least =>
    decide (plan.cost ≤ least * ratio)

/-- The plans that keep within the bounds of a configuration: those with few enough lookups, and
    of these the ones that are not too dear. -/
def PlanningConfig.allowed (config : PlanningConfig Rat) (plans : List (Plan Rat)) :
    List (Plan Rat) :=
  let few := plans.filter fun plan => config.maxLookups.all fun most =>
    decide (plan.steps.countP (·.isLookup) ≤ most)
  config.costRatio.elim few fun ratio => withinRatio ratio few

namespace PlanTree

theorem cost_foldl_least (plans : List (Plan Rat)) : ∀ best : Plan Rat,
    (plans.foldl (fun best q => if best.cost ≤ q.cost then best else q) best).cost
      = (plans.map (·.cost)).foldl min best.cost := by
  induction plans with
  | nil => intro best; rfl
  | cons plan plans ih =>
      intro best
      rw [List.foldl_cons, List.map_cons, List.foldl_cons, ih]
      split
      · next hle => rw [min_eq_left hle]
      · next hlt => rw [min_eq_right (le_of_not_ge hlt)]

/-- The plan of least cost costs the least. -/
theorem cost_minPlan? (tree : PlanTree Rat) :
    tree.minPlan?.map (·.cost) = (tree.plans.map (·.cost)).min? := by
  rw [minPlan?]
  cases tree.plans with
  | nil => rfl
  | cons plan plans =>
      rw [List.map_cons, List.min?_cons', ← cost_foldl_least]
      rfl

/-- **THE BOUND ON COSTS IS A FILTER**. -/
theorem plans_prunedByCostRatio (tree : PlanTree Rat) (ratio : Rat) :
    (tree.prunedByCostRatio ratio).plans = withinRatio ratio tree.plans := by
  have hleast := tree.cost_minPlan?
  rw [prunedByCostRatio, withinRatio, ← hleast]
  cases hbest : tree.minPlan? with
  | none =>
      rw [hbest] at hleast
      have hnil := List.map_eq_nil_iff.mp (List.min?_eq_none_iff.mp hleast.symm)
      rw [hnil]
      rfl
  | some best => exact plans_retain _ _

end PlanTree

namespace Planner

theorem plans_refine_search (p : Planner Rat) (q : Query Rat) :
    (p.refine (p.search q)).plans
      = p.config.costRatio.elim (p.search q).plans fun ratio =>
          withinRatio ratio (p.search q).plans := by
  rw [refine, retain_valid_search]
  cases p.config.costRatio with
  | none => rfl
  | some ratio => exact PlanTree.plans_prunedByCostRatio _ ratio

/-- **BOUNDS ARE EXACT FILTERS**: the plans within bounds are, in their order, those of all plans
    that keep within the bounds, and planning fails exactly where there are none. -/
theorem plansOf_bounded {indexes : List Index} (hkeys : Index.KeysDistinct indexes)
    (costs : CostModel Rat) (config : PlanningConfig Rat) (q : Query Rat) {all : List (Plan Rat)}
    (hall : (ofIndexes indexes costs { config with maxLookups := none, costRatio := none }).plansOf
      q = all) :
    (ofIndexes indexes costs config).plansOf q = config.allowed all
      ∧ ((∃ tree, (ofIndexes indexes costs config).plan q = .error (.noPlanFound q.text tree))
          ↔ config.allowed all = []) := by
  have hpool : Index.KeysDistinct (ofIndexes indexes costs config).pool := fun i hi j hj =>
    hkeys i (Index.mem_of_mem_pool hi) j (Index.mem_of_mem_pool hj)
  have hsorted : (ofIndexes indexes costs config).IsSorted := Index.pairwise_pool indexes
  have hplans : (ofIndexes indexes costs config).plansOf q = config.allowed all := by
    rw [plansOf_eq_refine, plans_refine_search, plans_search_bounded hpool hsorted, ← hall,
      plansOf_eq_refine, plans_refine_search]
    rfl
  exact ⟨hplans, hplans ▸ plan_fails_iff _ q⟩

/-! ## The topics of a city, at different costs

    The topics come from one index, or in two lookups: the users and then the
    messages of each, or the users with their messages in the place of one. -/

/-- The messages of the users of a city. -/
def cityMessagesIndex : Index where
  partition := SortedSet.ofList [userCity]
  ordered := [userId, tweetId]
  extra := SortedSet.ofList [tweetTopic]
  aggregates := ∅
  groupBy := ∅
  graph := userTweets

def cityTopicsIndexes : List Index := [cityUsersIndex, messagesIndex, cityMessagesIndex]

/-- At most two lookups, and at most twice the least cost. -/
def twofold : PlanningConfig Rat where
  maxLookups := some 2
  costRatio := some 2

/-- One of the three plans is more than twice as dear as the cheapest. -/
theorem plansOf_bounded_topics :
    Index.KeysDistinct cityTopicsIndexes
      ∧ ∃ all : List (Plan Rat),
        (ofIndexes cityTopicsIndexes .requestCount {}).plansOf cityTopicsQuery = all
        ∧ all.length = 3
        ∧ ((ofIndexes cityTopicsIndexes .requestCount twofold).plansOf cityTopicsQuery).length = 2
        ∧ (ofIndexes cityTopicsIndexes .requestCount twofold).plansOf cityTopicsQuery
          = twofold.allowed all := by
  have hkeys : Index.KeysDistinct cityTopicsIndexes := by
    rw [Index.KeysDistinct]
    decide +kernel
  exact ⟨hkeys, _, rfl, by decide +kernel, by decide +kernel,
    (plansOf_bounded hkeys .requestCount twofold cityTopicsQuery rfl).1⟩

end Planner

end IndexDesign
