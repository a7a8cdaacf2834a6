import IndexDesign.Proofs.Plan.Bounds
import IndexDesign.Proofs.Plan.Estimates

/-! # The bound on costs spares the cheapest plan

    A bound on costs is a ratio to the least cost.  It acts on the tree when
    the search is over, so with and without it the search is the same.  The
    plan of least cost is within the bound as long as its cost is not negative
    and the ratio is not below one; below zero it would be dearer than its own
    multiple, and all other plans with it.

    A configuration that is accepted has such a ratio, and unit costs that are
    not negative.  Estimates are not negative either, so no step has a negative
    price. -/

namespace IndexDesign

/-! ## The first of the cheapest plans -/

namespace Plan

variable {plans others : List (Plan Rat)} {plan : Plan Rat}

/-- No plan of the list is cheaper. -/
def isLeastOf (plans : List (Plan Rat)) (plan : Plan Rat) : Bool :=
  plans.all fun other => decide (plan.cost ≤ other.cost)

theorem isLeastOf_iff : plan.isLeastOf plans = true ↔ ∀ other ∈ plans, plan.cost ≤ other.cost := by
  simp only [isLeastOf, List.all_eq_true, decide_eq_true_eq]

theorem isLeastOf_of_covered (h : ∀ p ∈ others, ∃ q ∈ plans, q.cost ≤ p.cost)
    (hleast : plan.isLeastOf plans = true) : plan.isLeastOf others = true := by
  refine isLeastOf_iff.mpr fun p hp => ?_
  obtain ⟨q, hq, hle⟩ := h p hp
  exact le_trans (isLeastOf_iff.mp hleast q hq) hle

/-- Lists that have no dearer plan for each plan of the other are undercut alike. -/
theorem isLeastOf_congr (h : ∀ p ∈ others, ∃ q ∈ plans, q.cost ≤ p.cost)
    (h' : ∀ q ∈ plans, ∃ p ∈ others, p.cost ≤ q.cost) : isLeastOf plans = isLeastOf others :=
  funext fun _ => Bool.eq_iff_iff.mpr ⟨isLeastOf_of_covered h, isLeastOf_of_covered h'⟩

end Plan

namespace PlanTree

/-- Keeping the cheaper of two plans, and the first of equals, leads to the first plan that no
    other undercuts. -/
theorem find?_isLeastOf (plans : List (Plan Rat)) : ∀ first : Plan Rat,
    (first :: plans).find? (Plan.isLeastOf (first :: plans))
      = some (plans.foldl (fun best q => if best.cost ≤ q.cost then best else q) first) := by
  induction plans with
  | nil =>
      intro first
      refine List.find?_cons_of_pos ?_
      exact Plan.isLeastOf_iff.mpr (List.forall_mem_singleton.mpr le_rfl)
  | cons next plans ih =>
      intro first
      rw [List.foldl_cons]
      have hrest : ∀ q ∈ plans, ∃ p ∈ plans, p.cost ≤ q.cost := fun q hq => ⟨q, hq, le_rfl⟩
      by_cases hle : first.cost ≤ next.cost
      -- what is not the first is not the second either
      · have hsame : Plan.isLeastOf (first :: next :: plans) = Plan.isLeastOf (first :: plans) := by
          refine Plan.isLeastOf_congr (fun p hp => ⟨p, ?_, le_rfl⟩) ?_
          · exact List.mem_cons.mpr ((List.mem_cons.mp hp).imp_right (List.mem_cons_of_mem next))
          · refine List.forall_mem_cons.mpr ⟨⟨first, List.mem_cons_self, le_rfl⟩,
              List.forall_mem_cons.mpr ⟨⟨first, List.mem_cons_self, hle⟩, fun q hq => ?_⟩⟩
            exact ⟨q, List.mem_cons_of_mem first hq, le_rfl⟩
        rw [if_pos hle, ← ih first, hsame]
        by_cases hfirst : first.isLeastOf (first :: plans) = true
        · rw [List.find?_cons_of_pos hfirst, List.find?_cons_of_pos hfirst]
        · have hnext : ¬ next.isLeastOf (first :: plans) = true := fun hnext =>
            hfirst (Plan.isLeastOf_iff.mpr fun p hp =>
              le_trans hle (Plan.isLeastOf_iff.mp hnext p hp))
          rw [List.find?_cons_of_neg hfirst, List.find?_cons_of_neg hfirst,
            List.find?_cons_of_neg hnext]
      · have hsame : Plan.isLeastOf (first :: next :: plans) = Plan.isLeastOf (next :: plans) := by
          refine Plan.isLeastOf_congr (fun p hp => ⟨p, List.mem_cons_of_mem first hp, le_rfl⟩) ?_
          refine List.forall_mem_cons.mpr
            ⟨⟨next, List.mem_cons_self, (not_le.mp hle).le⟩, fun q hq => ⟨q, hq, le_rfl⟩⟩
        rw [if_neg hle, ← ih next, hsame]
        refine List.find?_cons_of_neg fun hfirst => ?_
        rw [← hsame] at hfirst
        exact hle (Plan.isLeastOf_iff.mp hfirst next (List.mem_cons_of_mem _ List.mem_cons_self))

/-- **THE PLAN OF LEAST COST** is the first that no other undercuts. -/
theorem minPlan?_eq_find? (tree : PlanTree Rat) :
    tree.minPlan? = tree.plans.find? (Plan.isLeastOf tree.plans) := by
  simp only [minPlan?]
  cases tree.plans with
  | nil => rfl
  | cons first plans => exact (find?_isLeastOf plans first).symm

theorem exists_minPlan? {tree : PlanTree Rat} (h : tree.plans ≠ []) :
    ∃ best, tree.minPlan? = some best := by
  obtain ⟨first, plans, hplans⟩ := List.exists_cons_of_ne_nil h
  simp only [minPlan?, hplans]
  exact ⟨_, rfl⟩

theorem minPlan?_spec {tree : PlanTree Rat} {best : Plan Rat} (h : tree.minPlan? = some best) :
    best ∈ tree.plans ∧ ∀ plan ∈ tree.plans, best.cost ≤ plan.cost := by
  rw [minPlan?_eq_find?] at h
  exact ⟨List.mem_of_find?_eq_some h, Plan.isLeastOf_iff.mp (List.find?_some h)⟩

/-- A test that passes every plan of least cost leaves the plan of least cost as it is. -/
theorem minPlan?_retain {tree : PlanTree Rat} {keep : Plan Rat → Bool}
    (h : ∀ plan ∈ tree.plans, plan.isLeastOf tree.plans = true → keep plan = true) :
    (tree.retain keep).minPlan? = tree.minPlan? := by
  have hsame : Plan.isLeastOf (tree.plans.filter keep) = Plan.isLeastOf tree.plans := by
    refine Plan.isLeastOf_congr (fun p hp => ?_) fun q hq => ?_
    · obtain ⟨best, hbest⟩ := exists_minPlan? (List.ne_nil_of_mem hp)
      obtain ⟨hmem, hleast⟩ := minPlan?_spec hbest
      exact ⟨best, List.mem_filter.mpr ⟨hmem, h best hmem (Plan.isLeastOf_iff.mpr hleast)⟩,
        hleast p hp⟩
    · exact ⟨q, (List.mem_filter.mp hq).1, le_rfl⟩
  rw [minPlan?_eq_find?, minPlan?_eq_find?, plans_retain, List.find?_filter, hsame]
  refine List.find?_congr fun plan hplan => ?_
  refine Bool.eq_iff_iff.mpr ?_
  rw [decide_eq_true_eq, and_iff_right_iff_imp]
  exact h plan hplan

/-- **THE BOUND ON COSTS SPARES THE CHEAPEST PLAN** where its cost is not negative and the ratio
    is one or more. -/
theorem minPlan?_prunedByCostRatio {tree : PlanTree Rat} {ratio : Rat} (hratio : 1 ≤ ratio)
    (hplans : ∀ plan ∈ tree.plans, 0 ≤ plan.cost) :
    (tree.prunedByCostRatio ratio).minPlan? = tree.minPlan? := by
  rw [prunedByCostRatio]
  cases hbest : tree.minPlan? with
  | none => exact hbest
  | some best =>
      obtain ⟨hmem, -⟩ := minPlan?_spec hbest
      refine (minPlan?_retain fun plan _ hleast => decide_eq_true ?_).trans hbest
      calc plan.cost ≤ best.cost := Plan.isLeastOf_iff.mp hleast best hmem
        _ ≤ best.cost * ratio := le_mul_of_one_le_right (hplans best hmem) hratio

end PlanTree

/-! ## Searching with and without the bound -/

namespace Planner

variable {p : Planner Rat} {q : Query Rat}

theorem explore_costRatio (ratio : Option Rat) (length : Nat) : ∀ path t,
    explore { p with config := { p.config with costRatio := ratio } } length path t
      = p.explore length path t := by
  induction length with
  | zero => intro path t; rfl
  | succ length ih =>
      intro path t
      simp only [explore, ih]
      rfl

/-- The bound on costs is not looked at before the search is over. -/
theorem search_costRatio (ratio : Option Rat) :
    search { p with config := { p.config with costRatio := ratio } } q = p.search q := by
  simp only [search, branchLength, explore_costRatio]

theorem refine_search_of_none (hp : p.config.costRatio = none) :
    p.refine (p.search q) = p.search q := by
  rw [refine, retain_valid_search, hp]
  rfl

/-- Where the least cost is not negative, the bound on costs loses neither the statement nor its
    cheapest plan. -/
theorem plan_of_minPlan? (hratio : ∀ ratio, p.config.costRatio = some ratio → 1 ≤ ratio)
    (hplans : ∀ plan ∈ (p.search q).plans, 0 ≤ plan.cost) {best : Plan Rat}
    (hbest : (p.search q).minPlan? = some best) :
    ∃ tree, p.plan q = .ok tree ∧ best ∈ tree.plans ∧ tree.minPlan? = some best := by
  have hrefined : (p.refine (p.search q)).minPlan? = some best := by
    rw [refine, retain_valid_search, ← hbest]
    cases hbound : p.config.costRatio with
    | none => rfl
    | some ratio => exact PlanTree.minPlan?_prunedByCostRatio (hratio ratio hbound) hplans
  have hmem := (PlanTree.minPlan?_spec hrefined).1
  rcases p.plan_cases q with ⟨hnil, -⟩ | ⟨-, hplan⟩
  · exact absurd hnil (List.ne_nil_of_mem hmem)
  · exact ⟨_, hplan, hmem, hrefined⟩

end Planner

/-! ## Configurations that are accepted -/

namespace Config

variable {c : Config Rat}

/-- What is accepted has a ratio of one or more and unit costs that pass their check. -/
theorem spec_of_validate (h : c.validate = .ok ()) :
    (∀ ratio, c.planning.costRatio = some ratio → 1 ≤ ratio) ∧ c.cost.firstNegative? = none := by
  simp only [validate] at h
  split at h
  · cases h
  · next hfault =>
    simp only [fault?, Option.or_eq_none_iff, Option.map_eq_none_iff] at hfault
    obtain ⟨-, hratio, hcost, -⟩ := hfault
    refine ⟨fun ratio hsome => ?_, hcost⟩
    rw [hsome, Option.filter_eq_none_iff] at hratio
    simpa using hratio ratio rfl

end Config

namespace Planner

/-- **THE COST RATIO LOSES NO STATEMENT**: with a configuration that is accepted, counting requests
    or pricing them by its unit costs, no step of any plan costs less than nothing.  So whatever
    has a plan without the cost ratio has one with it, and the cheapest is the same. -/
theorem plan_spares_cheapest {c : Config Rat} (hvalid : c.validate = .ok ()) {log2 : Rat → Rat}
    (hlog : ∀ n, 2 ≤ n → 1 ≤ log2 n) {costs : CostModel Rat}
    (hcosts : costs = .requestCount ∨ costs = .ofUnitCosts log2 c.cost) (indexes : List Index)
    (q : Query Rat) :
    (∀ planning plan, (ofIndexes indexes costs planning).IsPlanOf q plan →
        ∀ step ∈ plan.steps, 0 ≤ step.cost)
      ∧ ∀ tree, (ofIndexes indexes costs { c.planning with costRatio := none }).plan q = .ok tree →
        ∃ best pruned, tree.minPlan? = some best
          ∧ (ofIndexes indexes costs c.planning).plan q = .ok pruned
          ∧ best ∈ pruned.plans ∧ pruned.minPlan? = some best := by
  obtain ⟨hratio, hunits⟩ := Config.spec_of_validate hvalid
  have hnonneg : costs.IsNonNegative := by
    rcases hcosts with rfl | rfl
    · exact CostModel.isNonNegative_requestCount
    · exact CostModel.isNonNegative_ofUnitCosts
        (fun n hn => le_trans zero_le_one (hlog n hn)) hunits
  refine ⟨fun planning plan hplan => cost_nonneg_of_isPlanOf hnonneg hplan, fun tree htree => ?_⟩
  -- the tree without the bound is what the search finds
  have hsearch : (ofIndexes indexes costs c.planning).search q = tree := by
    rw [← refine_of_plan htree, refine_search_of_none rfl]
    exact (search_costRatio (p := ofIndexes indexes costs c.planning) none).symm
  have hplans : ∀ plan ∈ tree.plans, 0 ≤ plan.cost := by
    intro plan hplan
    rw [Plan.cost, Scalar.sum_rat]
    exact List.sum_nonneg
      (List.forall_mem_map.mpr (cost_nonneg_of_isPlanOf hnonneg ⟨tree, htree, hplan⟩))
  have hsome : tree.plans ≠ [] := by
    rw [plans_eq_map_planOf tree q, ne_eq, List.map_eq_nil_iff]
    exact runs_ne_nil_of_plan htree
  obtain ⟨best, hbest⟩ := PlanTree.exists_minPlan? hsome
  rw [← hsearch] at hbest hplans
  obtain ⟨pruned, hpruned, hmem, hleast⟩ := plan_of_minPlan? hratio hplans hbest
  exact ⟨best, pruned, hsearch ▸ hbest, hpruned, hmem, hleast⟩

/-! ## The topics of a city, at no more than twice the least cost -/

/-- Two comparisons for each row that is sorted. -/
def twoComparisons (_ : Rat) : Rat := 2

def twofoldConfig : Config Rat := { Config.standard with planning := twofold }

/-- The cheapest of the three plans is kept. -/
theorem plan_spares_cheapest_topics :
    twofoldConfig.validate = .ok () ∧ (∀ n, 2 ≤ n → 1 ≤ twoComparisons n)
      ∧ ∃ tree, (ofIndexes cityTopicsIndexes (.ofUnitCosts twoComparisons twofoldConfig.cost)
          { twofoldConfig.planning with costRatio := none }).plan cityTopicsQuery = .ok tree
        ∧ tree.plans.length = 3
        ∧ ∃ best pruned, tree.minPlan? = some best
          ∧ (ofIndexes cityTopicsIndexes (.ofUnitCosts twoComparisons twofoldConfig.cost)
            twofoldConfig.planning).plan cityTopicsQuery = .ok pruned
          ∧ best ∈ pruned.plans ∧ pruned.minPlan? = some best := by
  have hvalid : twofoldConfig.validate = .ok () := by
    have hfault : twofoldConfig.fault?.isNone = true := by decide +kernel
    rw [Config.validate, Option.isNone_iff_eq_none.mp hfault]
  have hlog : ∀ n, 2 ≤ n → 1 ≤ twoComparisons n := fun _ _ => one_le_two
  have hplanned : ((ofIndexes cityTopicsIndexes (.ofUnitCosts twoComparisons twofoldConfig.cost)
      { twofoldConfig.planning with costRatio := none }).plan cityTopicsQuery).toOption.any
        (·.plans.length == 3) = true := by decide +kernel
  obtain ⟨tree, htree, hlength⟩ := (Option.any_eq_true _ _).mp hplanned
  have hok := toOption_eq_some_iff.mp htree
  obtain ⟨-, hspared⟩ :=
    plan_spares_cheapest hvalid hlog (.inr rfl) cityTopicsIndexes cityTopicsQuery
  exact ⟨hvalid, hlog, tree, hok, eq_of_beq hlength, hspared tree hok⟩

end Planner

end IndexDesign
