import IndexDesign.Proofs.Exact
import IndexDesign.Proofs.Plan.LookedUp

/-! # What a plan is charged

    A plan is charged by its parts.  Every step belongs to one part, so nothing
    but the sorts at the ends of parts is left out of the charge.  A sort comes
    when there is nothing more to visit, so no lookup comes right behind it,
    and a part that ends in a sort is the last.  The charge of a plan is
    therefore its cost less that of a sort at its very end. -/

namespace IndexDesign

variable {α : Type}

/-! ## Parts keep all steps -/

theorem append_splitAtLookups (steps : List (Step α)) :
    (splitAtLookups steps).1 ++ (splitAtLookups steps).2.flatMap (·.2) = steps := by
  induction steps with
  | nil => rfl
  | cons step steps ih =>
      simp only [splitAtLookups]
      cases hindex : step.lookedUp? with
      | none => exact congrArg (step :: ·) ih
      | some index => exact congrArg (step :: ·) ih

theorem flatMap_steps_runsFrom (parts : List (Index × List (Step α))) :
    ∀ start, (runsFrom start parts).flatMap (·.steps) = parts.flatMap (·.2) := by
  induction parts with
  | nil => intro start; rfl
  | cons part parts ih =>
      intro start
      rw [runsFrom, List.flatMap_cons, List.flatMap_cons, ih]

namespace Plan

variable {p : Plan α}

/-- The runs of a plan that looks something up are all of its steps. -/
theorem flatMap_steps_runs (h : p.lookedUp ≠ []) : p.runs.flatMap (·.steps) = p.steps := by
  have hall := append_splitAtLookups p.steps
  rw [lookedUp, ne_eq, List.map_eq_nil_iff] at h
  unfold runs at h ⊢
  split
  · next hsplit =>
    rw [hsplit] at h
    exact absurd rfl h
  · next front index steps parts hsplit =>
    rw [hsplit, List.flatMap_cons] at hall
    rw [flatMap_steps_runsFrom, List.flatMap_cons, List.append_assoc]
    exact hall

/-- The steps of runs are steps of the plan. -/
theorem mem_steps_of_mem_runs {run : PlanRun α} (hrun : run ∈ p.runs) {step : Step α}
    (hstep : step ∈ run.steps) : step ∈ p.steps := by
  have hne : p.lookedUp ≠ [] := List.ne_nil_of_mem (List.mem_map_of_mem hrun)
  rw [← flatMap_steps_runs hne]
  exact List.mem_flatMap.mpr ⟨run, hrun, hstep⟩

end Plan

theorem PlanRun.mem_steps_of_mem_charged {run : PlanRun α} {step : Step α}
    (h : step ∈ run.charged) : step ∈ run.steps := by
  unfold charged at h
  split at h
  · exact List.dropLast_subset _ h
  · exact h

/-- A plan whose steps cost nothing below zero is charged nothing below zero. -/
theorem Plan.attributedCost_nonneg {p : Plan Rat} (hsteps : ∀ step ∈ p.steps, 0 ≤ step.cost)
    (hweight : 0 ≤ p.query.weight) : 0 ≤ p.attributedCost := by
  refine mul_nonneg ?_ hweight
  rw [Scalar.sum_rat]
  refine List.sum_nonneg (List.forall_mem_map.mpr fun run hrun => ?_)
  rw [PlanRun.cost, Scalar.sum_rat]
  refine List.sum_nonneg (List.forall_mem_map.mpr fun step hstep => ?_)
  exact hsteps step (mem_steps_of_mem_runs hrun (PlanRun.mem_steps_of_mem_charged hstep))

/-! ## Sorts at the end -/

/-- The cost of the steps. -/
def costOfSteps (steps : List (Step Rat)) : Rat := (steps.map (·.cost)).sum

/-- The cost of a sort that the steps end in. -/
def finalSort (steps : List (Step Rat)) : Rat :=
  ((steps.getLast?.filter (·.isSort)).map (·.cost)).getD 0

variable {step : Step Rat} {steps : List (Step Rat)}

theorem finalSort_append (before : List (Step Rat)) (h : steps ≠ []) :
    finalSort (before ++ steps) = finalSort steps := by
  rw [finalSort, List.getLast?_append_of_ne_nil _ h, finalSort]

theorem finalSort_concat (before : List (Step Rat)) (last : Step Rat) :
    finalSort (before ++ [last]) = if last.isSort then last.cost else 0 := by
  rw [finalSort, List.getLast?_concat, Option.filter_some]
  split <;> rfl

/-- What a run is charged lacks the sort at its end. -/
theorem PlanRun.cost_add_finalSort (run : PlanRun Rat) :
    run.cost + finalSort run.steps = costOfSteps run.steps := by
  rw [cost, Scalar.sum_rat, charged]
  rcases List.eq_nil_or_concat run.steps with hnil | ⟨before, last, hconcat⟩
  · rw [hnil]
    simp [finalSort, costOfSteps]
  · rw [hconcat, List.concat_eq_append, finalSort_concat, List.getLast?_concat, Option.any_some,
      List.dropLast_concat, costOfSteps, List.map_append, List.sum_append, List.map_singleton,
      List.sum_singleton]
    cases last.isSort with
    | true => rw [if_pos rfl, if_pos rfl]
    | false =>
        rw [if_neg Bool.false_ne_true, if_neg Bool.false_ne_true, List.map_append, List.sum_append,
          List.map_singleton, List.sum_singleton, add_zero]

/-- No lookup comes right behind a sort. -/
def SortsLast (steps : List (Step α)) : Prop :=
  steps.IsChain fun step next => step.isSort = true → next.lookedUp? = none

/-- The steps begin with the lookup of the index. -/
def BeginsWith (index : Index) (steps : List (Step α)) : Prop :=
  ∃ step rest, steps = step :: rest ∧ step.lookedUp? = some index

/-- Where all blocks of steps but the first begin with lookups, only the last ends in a sort. -/
theorem sum_finalSort (blocks : List (List (Step Rat))) :
    (∀ block ∈ blocks.tail, ∃ index, BeginsWith index block) → SortsLast blocks.flatten →
      (blocks.map finalSort).sum = finalSort blocks.flatten := by
  induction blocks with
  | nil => intro _ _; rfl
  | cons block blocks ih =>
      intro hbegins hsorts
      cases blocks with
      | nil => simp
      | cons second blocks =>
          obtain ⟨index, step, rest, rfl, hindex⟩ := hbegins second List.mem_cons_self
          rw [List.flatten_cons] at hsorts ⊢
          obtain ⟨-, hlater, hbetween⟩ := List.isChain_append.mp hsorts
          have hends : finalSort block = 0 := by
            rcases List.eq_nil_or_concat block with rfl | ⟨before, last, rfl⟩
            · rfl
            · rw [List.concat_eq_append, finalSort_concat, if_neg]
              intro hsort
              have hnone := hbetween last (by simp) step (by simp) hsort
              rw [hindex] at hnone
              exact nomatch hnone
          have hne : ((step :: rest) :: blocks).flatten ≠ [] := List.cons_ne_nil _ _
          rw [List.map_cons, List.sum_cons, hends, zero_add, finalSort_append _ hne]
          exact ih (fun later hmem => hbegins later (List.mem_cons_of_mem _ hmem)) hlater

theorem beginsWith_of_mem_splitAtLookups (steps : List (Step α)) :
    ∀ part ∈ (splitAtLookups steps).2, BeginsWith part.1 part.2 := by
  induction steps with
  | nil => intro part hpart; exact nomatch hpart
  | cons step steps ih =>
      intro part hpart
      simp only [splitAtLookups] at hpart
      cases hindex : step.lookedUp? with
      | none =>
          rw [hindex] at hpart
          exact ih part hpart
      | some index =>
          rw [hindex] at hpart
          rcases List.mem_cons.mp hpart with rfl | hpart
          · exact ⟨step, _, rfl, hindex⟩
          · exact ih part hpart

theorem mem_of_mem_runsFrom (parts : List (Index × List (Step α))) :
    ∀ start, ∀ run ∈ runsFrom start parts, (run.index, run.steps) ∈ parts := by
  induction parts with
  | nil => intro start run hrun; exact nomatch hrun
  | cons part parts ih =>
      intro start run hrun
      rw [runsFrom] at hrun
      rcases List.mem_cons.mp hrun with rfl | hrun
      · exact List.mem_cons_self
      · exact List.mem_cons_of_mem _ (ih _ run hrun)

namespace Plan

/-- All runs but the first begin with their lookup. -/
theorem beginsWith_of_mem_tail_runs {p : Plan α} {run : PlanRun α} (h : run ∈ p.runs.tail) :
    BeginsWith run.index run.steps := by
  have hparts := beginsWith_of_mem_splitAtLookups p.steps
  unfold runs at h
  split at h
  · cases h
  · next front index steps parts hsplit =>
    rw [hsplit] at hparts
    rw [runsFrom, List.tail_cons] at h
    exact hparts _ (List.mem_cons_of_mem _ (mem_of_mem_runsFrom parts _ run h))

variable {p : Plan Rat}

/-- The plan costs what its runs are charged and, on top, the sort that it ends in. -/
def IsChargedButFinalSort (p : Plan Rat) : Prop :=
  p.weightedCost = p.attributedCost + p.query.weight * finalSort p.steps

/-- **THE CHARGE LACKS THE LAST SORT** of a plan that looks something up, and nothing right behind
    a sort. -/
theorem isChargedButFinalSort (hlookups : p.lookedUp ≠ []) (hsorts : SortsLast p.steps) :
    p.IsChargedButFinalSort := by
  have hflat : (p.runs.map (·.steps)).flatten = p.steps := by
    rw [← List.flatMap_def, flatMap_steps_runs hlookups]
  have hfinal : (p.runs.map fun run => finalSort run.steps).sum = finalSort p.steps := by
    have hsum := sum_finalSort (p.runs.map (·.steps)) ?_ ?_
    · rwa [hflat, List.map_map] at hsum
    · rw [← List.map_tail]
      exact List.forall_mem_map.mpr fun run hrun => ⟨_, beginsWith_of_mem_tail_runs hrun⟩
    · rwa [hflat]
  have hcost : (p.runs.map fun run => costOfSteps run.steps).sum = costOfSteps p.steps := by
    rw [← hflat, costOfSteps, List.map_flatten, List.sum_flatten, List.map_map, List.map_map]
    rfl
  have hruns : (p.runs.map (·.cost)).sum + finalSort p.steps = costOfSteps p.steps := by
    rw [← hfinal, ← hcost, ← List.sum_map_add]
    exact congrArg List.sum (List.map_congr_left fun run _ => run.cost_add_finalSort)
  rw [IsChargedButFinalSort, weightedCost, attributedCost, cost, Scalar.sum_rat, Scalar.sum_rat]
  rw [costOfSteps] at hruns
  rw [← hruns]
  ring

end Plan

/-! ## The plans of a query -/

namespace Planner

section Runs

variable [Scalar α] {p : Planner α} {path : List (Step α)} {t next : Transition α} {q : Query α}

omit [Scalar α] in
/-- A sort neither looks an index up nor filters. -/
theorem of_isSort {step : Step α} (h : step.isSort = true) :
    step.lookedUp? = none ∧ step.isFilter = false := by
  unfold Step.isSort at h
  split at h
  · next fields hkind => exact ⟨by rw [Step.lookedUp?, hkind], by rw [Step.isFilter, hkind]⟩
  · cases h

/-- Behind a sort nothing is looked up any more. -/
theorem sortsLast_of_isRun (run : List (Transition α)) :
    ∀ path t, (t.step.isSort = true → t.state.joins = []) → p.IsRun path t run →
      SortsLast (t.step :: run.map (·.step)) := by
  induction run with
  | nil => intro path t _ _; exact .singleton _
  | cons next rest ih =>
      intro path t ht hrun
      obtain ⟨-, hfollows, hrest⟩ := hrun
      refine .cons_cons (fun hsort => not_lookup_of_joins_nil (ht hsort) hfollows)
        (ih _ next (fun hsort => ?_) hrest)
      obtain ⟨hlookup, hfilter⟩ := of_isSort hsort
      exact (joins_of_follows hfollows hlookup hfilter).2

/-- As long as nothing is looked up, everything is left to fetch. -/
theorem lookedUp_ne_nil_of_isRunOf {run : List (Transition α)} (hasks : q.required.isEmpty = false)
    (h : p.IsRunOf q run) : (run.map (·.step)).filterMap (·.lookedUp?) ≠ [] := by
  have hleft := holds_of_isRun
    (fun path t => path.filterMap (·.lookedUp?) = [] → t.state.fields = q.required)
    (fun ht hfollows hnone => by
      rcases isInMemory_or_isLookup hfollows with hmemory | ⟨index, -, covered, hlookup⟩
      · rw [List.filterMap_cons_none hmemory.lookedUp] at hnone
        rw [hmemory.fields, ht hnone]
      · rw [List.filterMap_cons_some hlookup.lookedUp] at hnone
        exact nomatch hnone)
    run [] (Transition.start q) (fun _ => rfl) h
  intro hnone
  rw [List.append_nil, List.filterMap_reverse, hnone] at hleft
  have hfields := (PlanState.isDone_of_isAnsweredFor (isAnswered_of_isRun run _ _ h)).fields
  rw [hleft rfl, hasks] at hfields
  exact nomatch hfields

end Runs

variable {p : Planner Rat} {q : Query Rat} {plan : Plan Rat}

/-- **PLANS ARE CHARGED ALL BUT A FINAL SORT**, if they are of a query that asks for something. -/
theorem isChargedButFinalSort_of_isPlanOf (hasks : q.required.isEmpty = false)
    (h : p.IsPlanOf q plan) : plan.IsChargedButFinalSort := by
  obtain ⟨tree, htree, hplan⟩ := h
  obtain ⟨run, -, rfl, hrun⟩ := exists_run_of_mem_plans htree hplan
  refine Plan.isChargedButFinalSort ?_ ?_
  · rw [Plan.lookedUp_eq]
    exact lookedUp_ne_nil_of_isRunOf hasks hrun
  · have hsorts := sortsLast_of_isRun run [] (Transition.start q) (fun hsort => nomatch hsort) hrun
    exact (List.isChain_cons.mp hsorts).2

end Planner

end IndexDesign
