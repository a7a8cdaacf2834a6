import IndexDesign.Proofs.Plan.Charged
import IndexDesign.Proofs.Selection.Origin

/-! # Reported costs

    A design tells two costs.  Its objective is what the solver minimizes: the
    charges of the plans that are taken, and the maintenance of the indexes
    that are chosen.  Its total is added up from the plans and the update plans
    that are read back, step by step.

    Both count the same maintenance, since the update plans that are read back
    are those of the chosen indexes.  A plan costs what it is charged and, on
    top, the sort that it ends in.  So the two costs differ by final sorts. -/

namespace IndexDesign

open ZeroOne

variable {a : Assignment Rat}

/-- What the sorts that plans end in cost, each times the weight of its query. -/
def finalSorts (plans : List (Plan Rat)) : Rat :=
  (plans.map fun plan => plan.query.weight * finalSort plan.steps).sum

theorem finalSorts_append (plans more : List (Plan Rat)) :
    finalSorts (plans ++ more) = finalSorts plans + finalSorts more := by
  rw [finalSorts, List.map_append, List.sum_append, finalSorts, finalSorts]

/-- Plans that end in no sort have no final sorts. -/
theorem finalSorts_eq_zero {plans : List (Plan Rat)}
    (h : ∀ plan ∈ plans, plan.steps.getLast?.any (·.isSort) = false) : finalSorts plans = 0 := by
  refine List.sum_eq_zero (List.forall_mem_map.mpr fun plan hplan => ?_)
  have hlast := h plan hplan
  rw [finalSort]
  cases hstep : plan.steps.getLast? with
  | none => exact mul_zero _
  | some step =>
      rw [hstep, Option.any_some] at hlast
      rw [Option.filter_some, hlast, if_neg Bool.false_ne_true]
      exact mul_zero _

namespace Choice

/-- The plans that are taken cost what they are charged and their final sorts. -/
theorem sum_weightedCost {value : Nat → Bool} {cs : List (Choice Rat)} {plans : List (Plan Rat)}
    (htakes : List.Forall₂ (fun c plan => c.Takes value (some plan)) cs plans) :
    (∀ c ∈ cs, ∀ plan ∈ c.plans, plan.IsChargedButFinalSort) →
      (plans.map (·.weightedCost)).sum = (cs.map (·.cost value)).sum + finalSorts plans := by
  induction htakes with
  | nil => intro _; exact (add_zero 0).symm
  | @cons c plan cs plans hplan _ ih =>
      intro hcharged
      have hfirst := hcharged c List.mem_cons_self plan (mem_plans_of_takes hplan)
      rw [Plan.IsChargedButFinalSort] at hfirst
      rw [List.map_cons, List.sum_cons, ih fun c hc => hcharged c (List.mem_cons_of_mem _ hc),
        hfirst, List.map_cons, List.sum_cons, cost_of_takes_some hplan]
      show _ = _ + (plan.query.weight * finalSort plan.steps + finalSorts plans)
      ring

end Choice

namespace SelectionProblem

/-! ## Update plans -/

/-- An index that is not chosen costs nothing to maintain. -/
theorem costOfUpkeep_of_not_chosen {indexes : List Index} {value : Nat → Bool} {u : Upkeep Rat}
    (h : Maintains indexes value u) (hvalue : value u.index = false) :
    costOfUpkeep value u = 0 := by
  rw [costOfUpkeep, hvalue, if_neg Bool.false_ne_true, zero_add]
  cases hsupport : u.support with
  | none => rfl
  | some choices =>
      refine sum_cost_of_count_eq_zero fun c hc => ?_
      rw [(h.support choices hsupport c hc).1, hvalue, if_neg Bool.false_ne_true]

/-- The update plan of a chosen index costs its upkeep and the final sorts of its support
    plans. -/
theorem cost_updatePlanOf {indexes : List Index} {u : Upkeep Rat}
    (h : Maintains indexes a.value u) (hvalue : a.value u.index = true)
    (hcharged : ∀ c ∈ u.support.getD [], ∀ plan ∈ c.plans, plan.IsChargedButFinalSort) :
    (updatePlanOf a u).cost = costOfUpkeep a.value u + finalSorts (updatePlanOf a u).support := by
  obtain ⟨choices, hsupport, htakes⟩ := takes_support h hvalue
  rw [hsupport] at hcharged
  rw [UpdatePlan.cost, Scalar.sum_rat (List.map Plan.weightedCost _),
    Choice.sum_weightedCost htakes hcharged, costOfUpkeep, hvalue, if_pos rfl, hsupport,
    ← add_assoc]
  rfl

/-- The update plans of chosen indexes cost all upkeep and the final sorts of their support
    plans. -/
theorem sum_cost_updatePlans {indexes : List Index} (us : List (Upkeep Rat)) :
    (∀ u ∈ us, Maintains indexes a.value u) →
      (∀ u ∈ us, ∀ c ∈ u.support.getD [], ∀ plan ∈ c.plans, plan.IsChargedButFinalSort) →
      (((us.filter fun u => a.value u.index).map (updatePlanOf a)).map (·.cost)).sum
        = (us.map (costOfUpkeep a.value)).sum
          + finalSorts (((us.filter fun u => a.value u.index).map (updatePlanOf a)).flatMap
              (·.support)) := by
  induction us with
  | nil => intro _ _; exact (add_zero 0).symm
  | cons u us ih =>
      intro hmaintains hcharged
      have hlater := ih (fun u hu => hmaintains u (List.mem_cons_of_mem _ hu))
        fun u hu => hcharged u (List.mem_cons_of_mem _ hu)
      have hfirst := hmaintains u List.mem_cons_self
      rw [List.filter_cons, List.map_cons, List.sum_cons]
      cases hvalue : a.value u.index with
      | false =>
          rw [if_neg Bool.false_ne_true, hlater, costOfUpkeep_of_not_chosen hfirst hvalue, zero_add]
      | true =>
          rw [if_pos rfl, List.map_cons, List.map_cons, List.sum_cons, hlater, List.flatMap_cons,
            finalSorts_append, cost_updatePlanOf hfirst hvalue (hcharged u List.mem_cons_self)]
          ring

end SelectionProblem

/-! ## Designs -/

/-- The plans that a design takes, for queries and in support of updates. -/
def Design.allPlans (r : Design Rat) : List (Plan Rat) := r.plans ++ r.updates.flatMap (·.support)

namespace Designer

variable {d : Designer Rat} {problem : SelectionProblem Rat}

/-- Every plan of a problem costs what it is charged and the sort that it ends in. -/
theorem isChargedButFinalSort_of_isPosedBy
    (hasks : ∀ q ∈ d.workload.queries, q.required.isEmpty = false) (h : d.IsPosedBy problem) :
    (∀ c ∈ problem.queries, ∀ plan ∈ c.plans, plan.IsChargedButFinalSort)
      ∧ ∀ u ∈ problem.upkeep, ∀ c ∈ u.support.getD [], ∀ plan ∈ c.plans,
        plan.IsChargedButFinalSort := by
  refine ⟨fun c hc plan hplan => ?_, fun u hu c hc plan hplan => ?_⟩
  · obtain ⟨q, hq, hplans⟩ := h.query c hc
    exact Planner.isChargedButFinalSort_of_isPlanOf (hasks q hq) (hplans plan hplan).1
  · obtain ⟨t, -, -, -, hchoices⟩ := h.upkeep u hu
    obtain ⟨queries, hqueries, q, hq, hplans⟩ := hchoices c hc
    -- a support query selects what is missing
    obtain ⟨graph, select, eq, hselect, rfl⟩ := Update.exists_of_mem_supportQueries hqueries hq
    have hmissing : (t.1.supportQuery t.2 graph select eq).required.isEmpty = false := hselect
    exact Planner.isChargedButFinalSort_of_isPlanOf hmissing (hplans plan hplan).1

/-- **COSTS DIFFER BY FINAL SORTS**: the total cost of a design is its objective and, on top, what
    the sorts cost that its plans end in; without such sorts, both are equal.  Queries that are
    accepted always ask for something. -/
theorem totalCost_eq_objective_add {r : Design Rat}
    (hasks : ∀ q ∈ d.workload.queries, q.required.isEmpty = false) (h : d.design = .ok r) :
    r.totalCost = r.objective + finalSorts r.allPlans
      ∧ ((∀ plan ∈ r.allPlans, plan.steps.getLast?.any (·.isSort) = false) →
          r.totalCost = r.objective) := by
  obtain ⟨problem, a, hproblem, -, hread⟩ := exists_of_design_eq_ok h
  have hposed := isPosedBy_of_problem hproblem
  obtain ⟨hqueries, hupkeep⟩ := isChargedButFinalSort_of_isPosedBy hasks hposed
  have hquerySum := Choice.sum_weightedCost hread.plans hqueries
  have hupdateSum :=
    SelectionProblem.sum_cost_updatePlans problem.upkeep hread.solves.upkeep hupkeep
  have hobjective : r.objective = problem.costOf a.value := by
    rw [hread.objective, SelectionProblem.objectiveValue_eq_cost hposed.numbered]
    rfl
  have hupdates : r.updates = (problem.upkeep.filter fun u => a.value u.index).map
      (SelectionProblem.updatePlanOf a) := hread.updates
  have htotal : r.totalCost = r.objective + finalSorts r.allPlans := by
    rw [Design.totalCost, Scalar.sum_rat, Scalar.sum_rat, hquerySum, hobjective,
      SelectionProblem.costOf, Design.allPlans, finalSorts_append, hupdates, hupdateSum]
    ring
  refine ⟨htotal, fun hends => ?_⟩
  rw [htotal, finalSorts_eq_zero hends, add_zero]

/-- Requests are counted, and a sort costs three of them. -/
def threeForSorts : CostModel Rat := { CostModel.requestCount with sort := fun _ _ => 3 }

/-- The names of a city's users are sorted at last. -/
theorem totalCost_eq_objective_add_birthday :
    (∀ q ∈ birthdayWorkload.queries, q.required.isEmpty = false)
      ∧ ∃ r, (ofIndexes birthdayWorkload [Planner.cityIndex, userByIdIndex] threeForSorts {}
          birthdayConfig).design = .ok r
        ∧ r.totalCost = r.objective + 3 := by
  have hasks : ∀ q ∈ birthdayWorkload.queries, q.required.isEmpty = false := by
    show ∀ q ∈ [_], _
    exact List.forall_mem_singleton.mpr rfl
  have hdesigned : (ofIndexes birthdayWorkload [Planner.cityIndex, userByIdIndex] threeForSorts {}
      birthdayConfig).design.toOption.any (finalSorts ·.allPlans == 3) = true := by
    decide +kernel
  obtain ⟨r, hr, hsorts⟩ := Option.any_eq_true _ _ |>.mp hdesigned
  have hok := Planner.toOption_eq_some_iff.mp hr
  refine ⟨hasks, r, hok, ?_⟩
  rw [(totalCost_eq_objective_add hasks hok).1, eq_of_beq hsorts]

end Designer

end IndexDesign
