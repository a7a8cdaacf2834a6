import IndexDesign.Proofs.Plan.Charged
import IndexDesign.Proofs.Plan.Estimates
import IndexDesign.Proofs.Selection.Origin

/-! # Variables that cost nothing below zero

    A variable of the program of a problem is that of an index, which costs its
    maintenance, or that of a plan, which costs what it is charged.  Prices
    that are not negative make neither negative but for the weights, which all
    charges are multiplied by.

    A query is only accepted with a weight that is not negative.  An update is
    accepted with any weight, so nothing less than a condition on the weights
    of updates will do: below zero, the maintenance of an index is paid for,
    and so are the plans of its support queries, which weigh as much. -/

namespace IndexDesign

open ZeroOne

/-! ## Statements that are accepted -/

/-- Every statement was accepted when it was built, before the queries got their handles. -/
structure Workload.IsAccepted (w : Workload Rat) : Prop where
  query : ∀ q ∈ w.queries, ∃ m d accepted, Query.build m d = .ok accepted
    ∧ q = { accepted with handle := q.handle }
  update : ∀ u ∈ w.updates, ∃ m d, Update.build m d = .ok u

/-- A query that is accepted has a weight that is not negative. -/
theorem Query.weight_nonneg_of_build {m : Model} {d : Query.Draft Rat} {q : Query Rat}
    (h : Query.build m d = .ok q) : 0 ≤ q.weight := by
  have hfault := (isMadeOf_of_build h).rules
  unfold fault? at hfault
  split at hfault
  · exact nomatch hfault
  · split at hfault
    · next hweight => rwa [Scalar.zero_rat] at hweight
    · exact nomatch hfault

namespace Workload

variable {w : Workload Rat} {q : Query Rat}

theorem IsAccepted.weight_nonneg (h : w.IsAccepted) (hq : q ∈ w.queries) : 0 ≤ q.weight := by
  obtain ⟨m, d, accepted, hbuild, heq⟩ := h.query q hq
  rw [heq]
  show 0 ≤ accepted.weight
  exact Query.weight_nonneg_of_build hbuild

end Workload

/-! ## The objectives of the variables -/

namespace SelectionProblem

variable {problem : SelectionProblem Rat}

/-- Where no maintenance and no plan is charged below zero, no variable is. -/
theorem objective_nonneg_of_charges
    (hupkeep : ∀ u ∈ problem.upkeep, 0 ≤ u.maintenance.weightedCost)
    (hplans : ∀ c ∈ problem.queries ++ problem.supportChoices, ∀ plan ∈ c.plans,
      0 ≤ plan.attributedCost) : ∀ x ∈ problem.program.vars, 0 ≤ x.objective := by
  intro x hx
  rw [program, Program.ofParts_eq] at hx
  rcases List.mem_append.mp (List.mem_toArray.mp hx) with hx | hx
  · obtain ⟨⟨i, v⟩, -, rfl⟩ := List.mem_map.mp hx
    show 0 ≤ problem.upkeepCost v
    rw [upkeepCost_eq_sum]
    refine List.sum_nonneg (List.forall_mem_map.mpr fun u hu => ?_)
    exact hupkeep u (List.mem_filter.mp hu).1
  · obtain ⟨c, hc, hx⟩ := List.mem_flatMap.mp hx
    obtain ⟨⟨plan, i⟩, hplan, rfl⟩ := List.mem_map.mp hx
    exact hplans c hc plan (List.fst_mem_of_mem_zipIdx hplan)

end SelectionProblem

namespace Designer

variable {d : Designer Rat} {problem : SelectionProblem Rat}

/-- **NO VARIABLE COSTS LESS THAN ZERO** where no price and no weight of an update is negative:
    that of an index, of a plan of a query, or of a plan of a support query. -/
theorem objective_nonneg (hw : d.workload.IsAccepted) (hcosts : d.planner.costs.IsNonNegative)
    (hupdates : ∀ u ∈ d.workload.updates, 0 ≤ u.weight) (h : d.problem = .ok problem) :
    ∀ x ∈ problem.program.vars, 0 ≤ x.objective := by
  have hposed := isPosedBy_of_problem h
  have hweight : ∀ t ∈ modifications d.workload.updates d.planner.pool, 0 ≤ t.1.weight :=
    fun t ht => hupdates t.1 (mem_of_mem_modifications ht).1
  have hcharged : ∀ q plan, 0 ≤ q.weight → d.planner.IsPlanOf q plan → 0 ≤ plan.attributedCost := by
    intro q plan hq hplan
    refine Plan.attributedCost_nonneg (Planner.cost_nonneg_of_isPlanOf hcosts hplan) ?_
    rwa [hplan.query_eq]
  refine SelectionProblem.objective_nonneg_of_charges ?_ ?_
  · intro u hu
    obtain ⟨t, ht, hmaintenance, -, -⟩ := hposed.upkeep u hu
    rw [hmaintenance]
    exact Planner.weightedCost_maintain_nonneg hcosts (hweight t ht) t.2
  · intro c hc plan hplan
    rcases List.mem_append.mp hc with hc | hc
    · obtain ⟨q, hq, hplans⟩ := hposed.query c hc
      exact hcharged q plan (hw.weight_nonneg hq) (hplans plan hplan).1
    · obtain ⟨u, hu, hc⟩ := List.mem_flatMap.mp hc
      obtain ⟨t, ht, -, -, hchoices⟩ := hposed.upkeep u hu
      obtain ⟨queries, hqueries, q, hq, hplans⟩ := hchoices c hc
      -- a support query weighs as much as its write
      obtain ⟨graph, select, eq, -, rfl⟩ := Update.exists_of_mem_supportQueries hqueries hq
      exact hcharged _ plan (hweight t ht) (hplans plan hplan).1

/-! ## Birthdays of any weight

    The update that writes ages is accepted whatever its weight. -/

/-- What writes ages, with a weight. -/
def birthdayDraft (weight : Rat) : Update.Draft Rat where
  kind := .update
  entity := "user"
  path := []
  settings := ["user.age"]
  eq := ["user.id"]
  weight
  text := some "birthday"

/-- The names of a city's users are asked for, and ages are written by an update of a weight. -/
def weighedBirthdays (weight : Rat) : Workload Rat :=
  ((Workload.ofModel Planner.userModel).add (.read Planner.namesQuery)).add
    (.write { birthdayUpdate with weight })

theorem isAccepted_weighedBirthdays (weight : Rat) : (weighedBirthdays weight).IsAccepted := by
  refine ⟨List.forall_mem_singleton.mpr ?_, List.forall_mem_singleton.mpr ?_⟩
  · exact ⟨Planner.userModel, Planner.namesDraft, Planner.namesQuery, rfl, rfl⟩
  · exact ⟨Planner.userModel, birthdayDraft weight, rfl⟩

/-- Of weight one, the update makes no variable cost less than zero. -/
theorem objective_nonneg_birthdays :
    (weighedBirthdays 1).IsAccepted ∧ (CostModel.requestCount : CostModel Rat).IsNonNegative
      ∧ (∀ u ∈ (weighedBirthdays 1).updates, 0 ≤ u.weight)
      ∧ ∃ problem, (ofIndexes (weighedBirthdays 1) [Planner.cityIndex, userByIdIndex]
          .requestCount {} .standard).problem = .ok problem
        ∧ problem.program.vars.size = 5 ∧ ∀ x ∈ problem.program.vars, 0 ≤ x.objective := by
  have hweights : ∀ u ∈ (weighedBirthdays 1).updates, 0 ≤ u.weight :=
    List.forall_mem_singleton.mpr zero_le_one
  have hposed : (ofIndexes (weighedBirthdays 1) [Planner.cityIndex, userByIdIndex]
      (.requestCount : CostModel Rat) {} .standard).problem.toOption.any
        (·.program.vars.size == 5) = true := by decide +kernel
  obtain ⟨problem, hproblem, hsize⟩ := Option.any_eq_true _ _ |>.mp hposed
  have hok := Planner.toOption_eq_some_iff.mp hproblem
  exact ⟨isAccepted_weighedBirthdays 1, CostModel.isNonNegative_requestCount, hweights, problem,
    hok, eq_of_beq hsize, objective_nonneg (isAccepted_weighedBirthdays 1)
      CostModel.isNonNegative_requestCount hweights hok⟩

/-- Of weight minus one, the update is accepted and pays for what it maintains. -/
theorem refunded_birthdays :
    (weighedBirthdays (-1)).IsAccepted ∧ (CostModel.requestCount : CostModel Rat).IsNonNegative
      ∧ ∃ problem, (ofIndexes (weighedBirthdays (-1)) [Planner.cityIndex, userByIdIndex]
          .requestCount {} .standard).problem = .ok problem
        ∧ ∃ x ∈ problem.program.vars, x.objective < 0 := by
  have hposed : (ofIndexes (weighedBirthdays (-1)) [Planner.cityIndex, userByIdIndex]
      (.requestCount : CostModel Rat) {} .standard).problem.toOption.any
        (·.program.vars.any (decide <| ·.objective < 0)) = true := by decide +kernel
  obtain ⟨problem, hproblem, hnegative⟩ := Option.any_eq_true _ _ |>.mp hposed
  obtain ⟨x, hx, hlt⟩ := Array.any_eq_true'.mp hnegative
  exact ⟨isAccepted_weighedBirthdays (-1), CostModel.isNonNegative_requestCount, problem,
    Planner.toOption_eq_some_iff.mp hproblem, x, hx, of_decide_eq_true hlt⟩

end Designer

end IndexDesign
