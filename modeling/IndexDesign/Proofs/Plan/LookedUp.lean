import IndexDesign.Proofs.Plan.Enumeration
import IndexDesign.Selection.Attribution

/-! # What plans look up

    A plan of a query uses indexes only by looking them up, and it looks up
    candidates only.  Cutting a plan into parts loses none of its lookups, so
    the indexes to which a plan is attributed are those that it uses. -/

namespace IndexDesign

variable {α : Type}

/-! ## The parts of plans -/

theorem map_fst_splitAtLookups (steps : List (Step α)) :
    (splitAtLookups steps).2.map (·.1) = steps.filterMap (·.lookedUp?) := by
  induction steps with
  | nil => rfl
  | cons step steps ih =>
      simp only [splitAtLookups]
      cases hindex : step.lookedUp? with
      | none => rw [List.filterMap_cons_none hindex, ← ih]
      | some index => rw [List.filterMap_cons_some hindex, ← ih, List.map_cons]

theorem map_index_runsFrom (parts : List (Index × List (Step α))) :
    ∀ start, (runsFrom start parts).map (·.index) = parts.map (·.1) := by
  induction parts with
  | nil => intro start; rfl
  | cons part parts ih =>
      intro start
      rw [runsFrom, List.map_cons, List.map_cons, ih]

/-- The parts of a plan are those of its lookups. -/
theorem Plan.lookedUp_eq (p : Plan α) : p.lookedUp = p.steps.filterMap (·.lookedUp?) := by
  rw [← map_fst_splitAtLookups, lookedUp, runs]
  split
  · next hsplit =>
    rw [hsplit]
    rfl
  · next front index steps parts hsplit =>
    rw [hsplit, map_index_runsFrom, List.map_cons, List.map_cons]

namespace Planner

variable [Scalar α] {p : Planner α} {path : List (Step α)} {t next : Transition α} {q : Query α}

/-- A step of a run uses an index only by looking it up. -/
theorem index?_of_follows (h : p.Follows path t next) : next.step.index? = next.step.lookedUp? := by
  cases h with
  | filter h => rw [Step.index?, Step.lookedUp?, (Transition.filter_spec h).2.2.1]
  | sort h =>
      obtain ⟨-, -, -, -, hkind, -⟩ := Transition.sort_spec h
      rw [Step.index?, Step.lookedUp?, hkind]
  | limit h =>
      obtain ⟨-, limit, -, -, -, hkind, -⟩ := Transition.limit_spec h
      rw [Step.index?, Step.lookedUp?, hkind]
  | aggregate h =>
      obtain ⟨-, -, -, hkind, -⟩ := Transition.aggregate_spec h
      rw [Step.index?, Step.lookedUp?, hkind]
  | lookup index _ _ _ h =>
      obtain ⟨covered, hlookup⟩ := Transition.lookup_spec h
      rw [Step.index?, Step.lookedUp?, hlookup.kind]

theorem filterMap_index?_of_isRun (run : List (Transition α)) :
    ∀ path t, p.IsRun path t run →
      (run.map (·.step)).filterMap (·.index?) = (run.map (·.step)).filterMap (·.lookedUp?) := by
  induction run with
  | nil => intro path t _; rfl
  | cons next rest ih =>
      intro path t hrun
      rw [List.map_cons, List.filterMap_cons, List.filterMap_cons, index?_of_follows hrun.2.1,
        ih _ next hrun.2.2]

/-- A run looks up candidates only. -/
theorem isOverPool_of_isRunOf {run : List (Transition α)} (h : p.IsRunOf q run) :
    p.IsOverPool (run.map (·.step)) := by
  have hover := holds_of_isRun (fun path _ => p.IsOverPool path)
    (fun hpath hfollows => isOverPool_of_follows hpath hfollows) run [] (Transition.start q)
    (fun _ hindex => nomatch hindex) h
  intro index hindex
  refine hover index ?_
  rw [List.append_nil, List.filterMap_reverse]
  exact List.mem_reverse.mpr hindex

/-! ## The plans of a query -/

variable [Rendered α]

/-- The plan is one of the tree of the query. -/
def IsPlanOf (p : Planner α) (q : Query α) (plan : Plan α) : Prop :=
  ∃ tree, p.plan q = .ok tree ∧ plan ∈ tree.plans

variable {plan : Plan α}

theorem IsPlanOf.query_eq (h : p.IsPlanOf q plan) : plan.query = q := by
  obtain ⟨tree, htree, hplan⟩ := h
  obtain ⟨run, -, rfl, hrun⟩ := exists_run_of_mem_plans htree hplan
  exact (rules_of_isRun run _ _ hrun).1

/-- A plan is attributed to the indexes that it uses. -/
theorem IsPlanOf.indexes_eq (h : p.IsPlanOf q plan) : plan.indexes = plan.lookedUp := by
  obtain ⟨tree, htree, hplan⟩ := h
  obtain ⟨run, -, rfl, hrun⟩ := exists_run_of_mem_plans htree hplan
  rw [Plan.lookedUp_eq]
  exact filterMap_index?_of_isRun run _ _ hrun

/-- These are candidates. -/
theorem IsPlanOf.mem_pool (h : p.IsPlanOf q plan) {i : Index} (hi : i ∈ plan.lookedUp) :
    i ∈ p.pool := by
  obtain ⟨tree, htree, hplan⟩ := h
  obtain ⟨run, -, rfl, hrun⟩ := exists_run_of_mem_plans htree hplan
  rw [Plan.lookedUp_eq] at hi
  exact isOverPool_of_isRunOf hrun i hi

end Planner

end IndexDesign
