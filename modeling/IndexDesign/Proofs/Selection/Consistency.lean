import IndexDesign.Proofs.Plan.LookedUp
import IndexDesign.Proofs.Selection.Readback
import IndexDesign.Proofs.ZeroOne.BranchAndBound
import IndexDesign.Selection.Search

/-! # Designs are complete and consistent

    A design that is returned has a plan for each query, from the plans of that
    query, and an update plan for each write and each chosen index that it
    modifies, with a plan for each support query.  All of these plans are over
    chosen indexes, so an index that some write cannot maintain is not chosen.

    The costs of a statement keep some of its plans, and an entry of costs is
    what a write does to a candidate.  So what is read back from the values of
    a selection problem is about the workload that the problem was built for. -/

namespace IndexDesign

open ZeroOne

/-! ## The plans of costs -/

namespace StatementCosts

variable {α : Type} [Scalar α]

theorem mem_plans_of_absorb {tolerance : α} {c next : StatementCosts α} {p : Plan α}
    (h : absorb tolerance c p = .ok next) {plan : Plan α} (hplan : plan ∈ next.plans) :
    plan ∈ c.plans ∨ plan = p := by
  unfold absorb at h
  split at h
  · rw [← Except.ok.inj h] at hplan
    exact (List.mem_append.mp hplan).imp_right List.mem_singleton.mp
  · split at h
    · exact nomatch h
    · rw [← Except.ok.inj h] at hplan
      exact .inl hplan

theorem mem_plans_of_foldlM_absorb {tolerance : α} (plans : List (Plan α)) :
    ∀ c costs : StatementCosts α, plans.foldlM (absorb tolerance) c = .ok costs →
      ∀ plan ∈ costs.plans, plan ∈ c.plans ∨ plan ∈ plans := by
  induction plans with
  | nil =>
      intro c costs h plan hplan
      rw [← Except.ok.inj h] at hplan
      exact .inl hplan
  | cons p plans ih =>
      intro c costs h plan hplan
      rw [List.foldlM_cons] at h
      obtain ⟨next, hnext, h⟩ := exists_of_bind_eq_ok h
      rcases ih next costs h plan hplan with hmem | hmem
      · refine (mem_plans_of_absorb hnext hmem).imp_right ?_
        rintro rfl
        exact List.mem_cons_self
      · exact .inr (List.mem_cons_of_mem _ hmem)

/-- The costs of a tree are about plans of the tree. -/
theorem mem_plans_of_ofTree {tolerance : α} {tree : PlanTree α} {costs : StatementCosts α}
    (h : ofTree tolerance tree = .ok costs) {plan : Plan α} (hplan : plan ∈ costs.plans) :
    plan ∈ tree.plans := by
  rcases mem_plans_of_foldlM_absorb _ _ _ h plan hplan with hmem | hmem
  · exact nomatch hmem
  · exact List.mem_mergeSort.mp hmem

end StatementCosts

/-! ## Chosen candidates -/

namespace Index

variable {indexes chosen : List Index}

/-- A candidate is chosen only as itself. -/
theorem mem_of_isChosen (hchosen : ∀ j ∈ chosen, j ∈ pool indexes) {i : Index}
    (hi : i ∈ pool indexes) (h : isChosen chosen i = true) : i ∈ chosen := by
  obtain ⟨j, hj, hdescriptor⟩ := isChosen_iff.mp h
  have hkey : Keyed.key j = Keyed.key i := by
    show [j.key, j.descriptor] = [i.key, i.descriptor]
    rw [key_eq_of_descriptor_eq hdescriptor, hdescriptor]
  have heq : j = i := SortedSet.eq_of_key_eq (hchosen j hj) hi hkey
  rwa [← heq]

/-- Chosen candidates are listed as the pool lists them. -/
theorem filter_isChosen (hsub : chosen.Sublist (pool (pool indexes))) :
    (pool indexes).filter (isChosen chosen) = chosen := by
  have : Std.Asymm fun i j : Index => Keyed.key i < Keyed.key j := ⟨fun _ _ h => List.lt_asymm h⟩
  have hchosen : ∀ j ∈ chosen, j ∈ pool indexes := fun j hj => mem_of_mem_pool (hsub.subset hj)
  refine List.Pairwise.eq_of_mem_iff ((Index.pairwise_pool indexes).filter _)
    ((Index.pairwise_pool (pool indexes)).sublist hsub) fun i => ?_
  rw [List.mem_filter]
  constructor
  · rintro ⟨hi, hisChosen⟩
    exact mem_of_isChosen hchosen hi hisChosen
  · intro hi
    exact ⟨hchosen i hi, isChosen_iff.mpr ⟨i, hi, rfl⟩⟩

end Index

/-! ## What writes do to indexes -/

/-- Each write with each of the indexes that it modifies. -/
def modifications {α : Type} (updates : List (Update α)) (indexes : List Index) :
    List (Update α × Index) :=
  updates.flatMap fun u => (indexes.filter u.modifies).map fun i => (u, i)

theorem mem_of_mem_modifications {α : Type} {updates : List (Update α)} {indexes : List Index}
    {t : Update α × Index} (h : t ∈ modifications updates indexes) :
    t.1 ∈ updates ∧ t.2 ∈ indexes := by
  obtain ⟨u, hu, ht⟩ := List.mem_flatMap.mp h
  obtain ⟨i, hi, rfl⟩ := List.mem_map.mp ht
  exact ⟨hu, (List.mem_filter.mp hi).1⟩

theorem filter_modifications {α : Type} (updates : List (Update α)) (indexes : List Index)
    (keep : Index → Bool) :
    (modifications updates indexes).filter (fun t => keep t.2)
      = modifications updates (indexes.filter keep) := by
  unfold modifications
  rw [List.filter_flatMap]
  refine List.flatMap_congr fun u _ => ?_
  rw [List.filter_map, List.filter_filter, List.filter_filter]
  refine congrArg (List.map _) (List.filter_congr fun i _ => ?_)
  exact Bool.and_comm _ _

namespace Planner

/-- The costs are about plans of the query. -/
def AreCostsOf (p : Planner Rat) (q : Query Rat) (c : StatementCosts Rat) : Prop :=
  ∀ plan ∈ c.plans, p.IsPlanOf q plan

/-- The entry is what a write does to an index, with the costs of its support queries. -/
structure IsEntryOf (p : Planner Rat) (t : Update Rat × Index) (e : MaintenanceCosts Rat) :
    Prop where
  maintenance : e.maintenance = p.maintain t.1 t.2
  supported : e.support.isSome = e.maintenance.isSupported
  support : ∀ costs, e.support = some costs →
    ∃ queries, t.1.supportQueries t.2 = some queries ∧ List.Forall₂ p.AreCostsOf queries costs

/-- The plan is one of the query, and all indexes that it uses are chosen. -/
def IsPlanOver (p : Planner Rat) (chosen : List Index) (q : Query Rat) (plan : Plan Rat) : Prop :=
  p.IsPlanOf q plan ∧ ∀ i ∈ plan.indexes, i ∈ chosen

/-- The update plan says how a write maintains an index, with one plan over chosen indexes for
    each support query. -/
structure IsUpdatePlanOver (p : Planner Rat) (chosen : List Index) (t : Update Rat × Index)
    (plan : UpdatePlan Rat) : Prop where
  statement : plan.statement = t.1
  index : plan.index = t.2
  steps : plan.steps = (p.maintain t.1 t.2).steps
  supported : (p.maintain t.1 t.2).isSupported = true
  support : ∃ queries, t.1.supportQueries t.2 = some queries
    ∧ List.Forall₂ (p.IsPlanOver chosen) queries plan.support

/-- Trees of support queries are trees of their plans. -/
theorem exists_of_support?_eq_some {p : Planner Rat} {u : Update Rat} {i : Index}
    {trees : List (PlanTree Rat)} (h : p.support? u i = some trees) :
    ∃ queries, u.supportQueries i = some queries
      ∧ List.Forall₂ (fun q tree => p.plan q = .ok tree) queries trees := by
  obtain ⟨queries, hqueries, h⟩ := Option.bind_eq_some_iff.mp h
  refine ⟨queries, hqueries, (forall₂_of_mapM_eq_some queries trees h).imp ?_⟩
  intro q tree htree
  exact toOption_eq_some_iff.mp htree

end Planner

/-! ## The costs of a workload -/

namespace Designer

variable {d : Designer Rat}

theorem isEntryOf_of_maintenanceCosts {t : Update Rat × Index} {e : MaintenanceCosts Rat}
    (h : d.maintenanceCosts (d.planner.maintain t.1 t.2) = .ok e) : d.planner.IsEntryOf t e := by
  unfold maintenanceCosts at h
  cases hsupport : (d.planner.maintain t.1 t.2).support with
  | none =>
      rw [hsupport] at h
      rw [← Except.ok.inj h]
      refine ⟨rfl, ?_, fun _ hcosts => nomatch hcosts⟩
      rw [Maintenance.isSupported, hsupport]
      rfl
  | some trees =>
      rw [hsupport] at h
      obtain ⟨costs, hcosts, h⟩ := exists_of_bind_eq_ok h
      rw [← Except.ok.inj h]
      refine ⟨rfl, ?_, ?_⟩
      · rw [Maintenance.isSupported, hsupport]
        rfl
      · rintro _ ⟨⟩
        obtain ⟨queries, hqueries, htrees⟩ := Planner.exists_of_support?_eq_some hsupport
        refine ⟨queries, hqueries, ?_⟩
        refine (forall₂_trans htrees ((mapM_eq_ok_iff _ _).mp hcosts)).imp ?_
        rintro q c ⟨tree, htree, hc⟩ plan hplan
        exact ⟨tree, htree, StatementCosts.mem_plans_of_ofTree hc hplan⟩

/-- Maintenance is that of each modification of a candidate. -/
theorem maintenance_eq :
    d.maintenance = (modifications d.workload.updates d.planner.pool).map fun t =>
      d.planner.maintain t.1 t.2 := by
  unfold maintenance modifications
  rw [List.map_flatMap]
  refine List.flatMap_congr fun u _ => ?_
  rw [Planner.maintenance, List.map_map]
  rfl

/-- **COSTS ARE ABOUT THE WORKLOAD**: about the plans of each query, and about what each write
    does to each candidate that it modifies. -/
theorem costs_spec {queries : List (StatementCosts Rat)} {maintenance : List (MaintenanceCosts Rat)}
    (h : d.costs = .ok (queries, maintenance)) :
    List.Forall₂ d.planner.AreCostsOf d.workload.queries queries
      ∧ List.Forall₂ d.planner.IsEntryOf (modifications d.workload.updates d.planner.pool)
          maintenance := by
  obtain ⟨found, hqueries, h⟩ := exists_of_bind_eq_ok h
  obtain ⟨entries, hmaintenance, h⟩ := exists_of_bind_eq_ok h
  obtain ⟨rfl, rfl⟩ := Prod.mk.inj (Except.ok.inj h)
  constructor
  · have hall := (mapM_eq_ok_iff _ _).mp hqueries
    rw [trees, List.forall₂_map_left_iff] at hall
    refine hall.imp ?_
    intro q c hc plan hplan
    obtain ⟨tree, htree, hc⟩ := exists_of_bind_eq_ok hc
    exact ⟨tree, htree, StatementCosts.mem_plans_of_ofTree hc hplan⟩
  · have hall := (mapM_eq_ok_iff _ _).mp hmaintenance
    rw [maintenance_eq, List.forall₂_map_left_iff] at hall
    exact hall.imp fun t e he => isEntryOf_of_maintenanceCosts he

/-! ## Designs for the workload -/

/-- **WHAT A DESIGN HAS TO BE**: candidates with one plan for each query and one update plan for
    each write and each of the indexes that it modifies, all over these indexes. -/
structure IsRealizedBy (d : Designer Rat) (r : Design Rat) : Prop where
  indexes : r.indexes.Sublist d.planner.pool
  plans : List.Forall₂ (d.planner.IsPlanOver r.indexes) d.workload.queries r.plans
  updates : List.Forall₂ (d.planner.IsUpdatePlanOver r.indexes)
    (modifications d.workload.updates r.indexes) r.updates

section Realized

variable {indexes : List Index} (hpool : d.planner.pool = Index.pool indexes)

include hpool

/-- A plan that is attributed to chosen indexes uses these only. -/
theorem isPlanOver_of_answers {chosen : List Index} (hchosen : ∀ i ∈ chosen, i ∈ d.planner.pool)
    {q : Query Rat} {c : StatementCosts Rat} {plan : Plan Rat} (hcosts : d.planner.AreCostsOf q c)
    (h : Answers chosen c plan) : d.planner.IsPlanOver chosen q plan := by
  have hplan := hcosts plan h.1
  refine ⟨hplan, ?_⟩
  intro i hi
  rw [hplan.indexes_eq] at hi
  rw [hpool] at hchosen
  exact Index.mem_of_isChosen hchosen (hpool ▸ hplan.mem_pool hi) (h.2 i hi)

/-- **WHAT IS READ BACK IS ABOUT THE WORKLOAD**, if the costs are. -/
theorem isRealizedBy_of_isReadFrom {queries : List (StatementCosts Rat)}
    {maintenance : List (MaintenanceCosts Rat)} {budget : Option Rat} {r : Design Rat}
    (hqueries : List.Forall₂ d.planner.AreCostsOf d.workload.queries queries)
    (hmaintenance : List.Forall₂ d.planner.IsEntryOf
      (modifications d.workload.updates d.planner.pool) maintenance)
    (h : SelectionProblem.IsReadFrom d.planner.pool queries maintenance budget r) :
    d.IsRealizedBy r := by
  have hchosen : d.planner.pool.filter (isChosen r.indexes) = r.indexes := by
    have hsub := h.indexes
    rw [hpool] at hsub ⊢
    exact Index.filter_isChosen hsub
  have hsub : r.indexes.Sublist d.planner.pool := by
    rw [← hchosen]
    exact List.filter_sublist
  have hover : ∀ {q c plan}, d.planner.AreCostsOf q c → Answers r.indexes c plan →
      d.planner.IsPlanOver r.indexes q plan := fun hcosts hanswers =>
    isPlanOver_of_answers hpool (fun i hi => hsub.subset hi) hcosts hanswers
  refine ⟨hsub, ?_, ?_⟩
  · refine (forall₂_trans hqueries h.plans).imp ?_
    rintro q plan ⟨c, hcosts, hanswers⟩
    exact hover hcosts hanswers
  -- the entries of chosen indexes are those of the chosen indexes' modifications
  have hentries : List.Forall₂ d.planner.IsEntryOf (modifications d.workload.updates r.indexes)
      (maintenance.filter fun e => isChosen r.indexes e.maintenance.index) := by
    have hfiltered := filter_modifications d.workload.updates d.planner.pool (isChosen r.indexes)
    rw [hchosen] at hfiltered
    rw [← hfiltered]
    refine List.rel_filter ?_ hmaintenance
    intro t e he
    show isChosen r.indexes t.2 = true ↔ isChosen r.indexes e.maintenance.index = true
    rw [he.maintenance]
    rfl
  refine (forall₂_trans hentries h.updates).imp ?_
  rintro t plan ⟨e, he, hplan⟩
  obtain ⟨costs, hcosts, hanswers⟩ := hplan.support
  obtain ⟨support, hsupport, hall⟩ := he.support costs hcosts
  refine ⟨?_, ?_, ?_, ?_, support, hsupport, ?_⟩
  · rw [hplan.statement, he.maintenance]
    rfl
  · rw [hplan.index, he.maintenance]
    rfl
  · rw [hplan.steps, he.maintenance]
  · rw [← he.maintenance, ← he.supported, hcosts]
    rfl
  · refine (forall₂_trans hall hanswers).imp ?_
    rintro q p ⟨c, hc, hp⟩
    exact hover hc hp

end Realized

/-! ## Building the problem -/

/-- The plans of costs look up candidates only. -/
theorem isCandidate_of_areCostsOf {queries : List (Query Rat)} {costs : List (StatementCosts Rat)}
    (h : List.Forall₂ d.planner.AreCostsOf queries costs) :
    ∀ c ∈ costs, ∀ plan ∈ c.plans, ∀ i ∈ plan.lookedUp, IsCandidate d.planner.pool i := by
  intro c hc plan hplan i hi
  obtain ⟨q, -, hcosts⟩ := exists_of_forall₂_right h hc
  exact isCandidate_of_mem ((hcosts plan hplan).mem_pool hi)

/-- Entries are about candidates. -/
theorem isEntryOver_of_isEntryOf {maintenance : List (MaintenanceCosts Rat)}
    (h : List.Forall₂ d.planner.IsEntryOf (modifications d.workload.updates d.planner.pool)
      maintenance) : ∀ e ∈ maintenance, IsEntryOver d.planner.pool e := by
  intro e he
  obtain ⟨t, ht, hentry⟩ := exists_of_forall₂_right h he
  obtain ⟨u, -, ht⟩ := List.mem_flatMap.mp ht
  obtain ⟨i, hi, rfl⟩ := List.mem_map.mp ht
  constructor
  · rw [hentry.maintenance]
    exact isCandidate_of_mem (List.mem_filter.mp hi).1
  · intro costs hcosts
    obtain ⟨support, -, hall⟩ := hentry.support costs hcosts
    exact isCandidate_of_areCostsOf hall

/-- The problem is over what presolve leaves of the costs; there is none where statements have no
    costs or are left without plans. -/
theorem problem_cases (d : Designer Rat) :
    (∃ e, d.problem = .error (.planning e))
      ∨ d.problem = .error (.selection (.noSolution d.config.spaceBudget))
      ∨ ∃ queries maintenance kept restricted candidates,
          d.costs = .ok (queries, maintenance)
          ∧ SelectionProblem.IsPresolved (Index.pool d.planner.pool) queries maintenance
              d.config.spaceBudget kept restricted candidates
          ∧ d.problem = .ok (SelectionProblem.restrictTo candidates restricted maintenance
              d.config.spaceBudget) := by
  unfold problem
  cases hcosts : d.costs with
  | error e => exact .inl ⟨e, rfl⟩
  | ok costs =>
      obtain ⟨queries, maintenance⟩ := costs
      refine .inr ?_
      have hover : ∀ c ∈ queries, ∀ p ∈ c.plans, ∀ i ∈ p.lookedUp,
          i.key ∈ (Index.pool d.planner.pool).map (·.key) := by
        intro c hc p hp i hi
        obtain ⟨j, hj, hji⟩ := isCandidate_of_areCostsOf (costs_spec hcosts).1 c hc p hp i hi
        obtain ⟨k, hk, hkj⟩ := Index.exists_mem_pool hj
        exact List.mem_map.mpr ⟨k, hk, Index.key_eq_of_descriptor_eq (hkj.trans hji)⟩
      rcases SelectionProblem.build_cases d.planner.pool queries maintenance d.config hover with
        ⟨kept, restricted, candidates, hpresolved, hbuild⟩ | ⟨hbuild, -⟩
      · refine .inr ⟨queries, maintenance, kept, restricted, candidates, rfl, hpresolved, ?_⟩
        show (SelectionProblem.build _ _ _ _).mapError _ = _
        rw [hbuild]
        rfl
      · refine .inl ?_
        show (SelectionProblem.build _ _ _ _).mapError _ = _
        rw [hbuild]
        rfl

/-- Branch and bound ends without a design, or reads one back from feasible values and checks
    it. -/
theorem solve_cases (problem : SelectionProblem Rat) (s : BranchAndBound) :
    problem.solve s.solve = .error (.noSolution problem.budget)
      ∨ problem.solve s.solve = .error (.solverLimit s.maxNodes)
      ∨ ∃ a, problem.program.isFeasible a.values = true ∧ ∀ r, problem.designOf a = .ok r →
          r.fault? = none ∧ problem.solve s.solve = .ok r
            ∨ ∃ fault, r.fault? = some fault
              ∧ problem.solve s.solve = .error (.internal fault) := by
  unfold SelectionProblem.solve
  rcases s.solve_cases problem.program with ⟨a, -, hsolve⟩ | ⟨-, -, hsolve⟩ | ⟨-, -, hsolve⟩
  · refine .inr (.inr ⟨a, (BranchAndBound.isSound_of_solve hsolve).1, ?_⟩)
    intro r hr
    rw [hsolve]
    dsimp only
    rw [hr]
    cases hfault : r.fault? with
    | none =>
        refine .inl ⟨rfl, ?_⟩
        show (r.validate >>= fun _ => pure r) = .ok r
        rw [Design.validate, hfault]
        rfl
    | some fault =>
        refine .inr ⟨fault, rfl, ?_⟩
        show (r.validate >>= fun _ => pure r) = .error (.internal fault)
        rw [Design.validate, hfault]
        rfl
  · rw [hsolve]
    exact .inr (.inl rfl)
  · rw [hsolve]
    exact .inl rfl

theorem design_eq_of_error {e : DesignError Rat} (h : d.problem = .error e) :
    d.design = .error e := by
  unfold design designWith
  rw [h]
  rfl

theorem design_eq_of_ok {problem : SelectionProblem Rat} (h : d.problem = .ok problem) :
    d.design
      = (problem.solve (BranchAndBound.ofLimit d.config.maxNodes).solve).mapError .selection := by
  unfold design designWith
  rw [h]
  rfl

/-- **EVERY ASSIGNMENT IS A DESIGN FOR THE WORKLOAD**: where a problem is built and solved, what
    is read back realizes the workload, and it is returned unless it breaks a rule for designs. -/
theorem design_cases {indexes : List Index} (hpool : d.planner.pool = Index.pool indexes)
    (hkeys : Index.KeysDistinct indexes) :
    (∃ e, d.design = .error (.planning e))
      ∨ d.design = .error (.selection (.noSolution d.config.spaceBudget))
      ∨ d.design = .error (.selection (.solverLimit (max d.config.maxNodes 1)))
      ∨ ∃ r, d.IsRealizedBy r ∧ r.budget = d.config.spaceBudget
          ∧ (∀ b, d.config.spaceBudget = some b → r.totalSize ≤ b + Scalar.tolerance)
          ∧ (r.fault? = none ∧ d.design = .ok r
            ∨ ∃ fault, r.fault? = some fault
              ∧ d.design = .error (.selection (.internal fault))) := by
  rcases d.problem_cases with ⟨e, hproblem⟩ | hproblem |
    ⟨queries, maintenance, kept, restricted, candidates, hcosts, hpresolved, hproblem⟩
  · exact .inl ⟨e, design_eq_of_error hproblem⟩
  · exact .inr (.inl (design_eq_of_error hproblem))
  refine .inr ?_
  obtain ⟨hqueries, hmaintenance⟩ := costs_spec hcosts
  have hdistinct : Index.KeysDistinct d.planner.pool := by
    rw [hpool]
    exact fun i hi j hj => hkeys i (Index.mem_of_mem_pool hi) j (Index.mem_of_mem_pool hj)
  rw [design_eq_of_ok hproblem]
  rcases solve_cases (SelectionProblem.restrictTo candidates restricted maintenance
      d.config.spaceBudget) (BranchAndBound.ofLimit d.config.maxNodes) with
    hsolve | hsolve | ⟨a, hfeasible, hread⟩
  · rw [hsolve]
    exact .inl rfl
  · rw [hsolve]
    exact .inr (.inl rfl)
  refine .inr (.inr ?_)
  obtain ⟨r, hr, hfrom⟩ := SelectionProblem.designOf_eq_ok hdistinct
    (isCandidate_of_areCostsOf hqueries) (isEntryOver_of_isEntryOf hmaintenance) hpresolved
    hfeasible
  refine ⟨r, isRealizedBy_of_isReadFrom hpool hqueries hmaintenance hfrom, hfrom.sameBudget,
    hfrom.fits, ?_⟩
  rcases hread r hr with ⟨hnone, hsolve⟩ | ⟨fault, hfault, hsolve⟩
  · rw [hsolve]
    exact .inl ⟨hnone, rfl⟩
  · rw [hsolve]
    exact .inr ⟨fault, hfault, rfl⟩

/-- A design without faults exceeds its budget by rounding at most. -/
theorem totalSize_le_of_fault? {r : Design Rat} (h : r.fault? = none) {b : Rat}
    (hb : r.budget = some b) : r.totalSize ≤ b * (1 + 1 / 10 ^ 9) := by
  unfold Design.fault? at h
  rw [Option.or_eq_none_iff, Option.or_eq_none_iff] at h
  have hwithin := h.1.1
  rw [Design.overBudget?, hb, Option.bind_some, Scalar.one_rat, Scalar.tolerance_rat] at hwithin
  have hle : ¬ b * (1 + 1 / 1000000000) < r.totalSize := fun hlt => by
    rw [if_pos hlt] at hwithin
    exact nomatch hwithin
  norm_num at hle ⊢
  exact hle

/-- **EVERY DESIGN IS COMPLETE AND CONSISTENT**: a design that is returned has one plan for each
    query, in order and from the query's own plans, and one update plan for each write and each
    chosen index that it modifies, with one plan for each support query; no plan uses an index
    that is not chosen, and no index is chosen that a write cannot maintain; and the indexes fit
    the budget up to rounding. -/
theorem design_realizes {w : Workload Rat} {indexes : List Index}
    (hkeys : Index.KeysDistinct indexes) (costs : CostModel Rat) (planning : PlanningConfig Rat)
    (selection : SelectionConfig Rat) {r : Design Rat}
    (h : (ofIndexes w indexes costs planning selection).design = .ok r) :
    (ofIndexes w indexes costs planning selection).IsRealizedBy r
      ∧ ∀ b, selection.spaceBudget = some b → r.totalSize ≤ b * (1 + 1 / 10 ^ 9) := by
  rcases design_cases (d := ofIndexes w indexes costs planning selection) rfl hkeys with
    ⟨e, herror⟩ | herror | herror | ⟨found, hrealized, hbudget, -, hresult⟩
  · exact nomatch h.symm.trans herror
  · exact nomatch h.symm.trans herror
  · exact nomatch h.symm.trans herror
  rcases hresult with ⟨hnone, hok⟩ | ⟨fault, -, herror⟩
  · obtain rfl : r = found := Except.ok.inj (h.symm.trans hok)
    exact ⟨hrealized, fun b hb => totalSize_le_of_fault? hnone (hbudget.trans hb)⟩
  · exact nomatch h.symm.trans herror

/-! ## Users that become older

    The names of a city's users above an age are asked for, and ages are
    written.  Both indexes store the age, and the rest of their rows is found by
    the identifier. -/

/-- Users by their identifier. -/
def userByIdIndex : Index :=
  { Planner.cityIndex with
    partition := SortedSet.ofList [Planner.userId]
    ordered := []
    extra := SortedSet.ofList [Planner.userCity, Planner.userAge, Planner.userName] }

def birthdayUpdate : Update Rat where
  text := "birthday"
  kind := .update
  entity := Planner.userEntity
  settings := SortedSet.ofList [Planner.userAge]
  eq := SortedSet.ofList [Planner.userId]
  graph := JoinGraph.single Planner.userEntity
  weight := 1

def birthdayWorkload : Workload Rat :=
  ((Workload.ofModel Planner.userModel).add (.read Planner.namesQuery)).add (.write birthdayUpdate)

/-- As many bytes as both indexes take. -/
def birthdayConfig : SelectionConfig Rat :=
  { SelectionConfig.standard with spaceBudget := some 14400 }

theorem keysDistinct_birthday : Index.KeysDistinct [Planner.cityIndex, userByIdIndex] := by
  show ∀ i ∈ _, ∀ j ∈ _, _ → _
  decide +kernel

/-- Both indexes are chosen, and the write maintains both. -/
theorem design_realizes_birthday :
    Index.KeysDistinct [Planner.cityIndex, userByIdIndex]
      ∧ ∃ r, (ofIndexes birthdayWorkload [Planner.cityIndex, userByIdIndex] .requestCount {}
          birthdayConfig).design = .ok r
        ∧ r.updates.map (·.support.length) = [1, 1]
        ∧ (ofIndexes birthdayWorkload [Planner.cityIndex, userByIdIndex] .requestCount {}
            birthdayConfig).IsRealizedBy r
        ∧ r.totalSize ≤ 14400 * (1 + 1 / 10 ^ 9) := by
  have hdesigned : (ofIndexes birthdayWorkload [Planner.cityIndex, userByIdIndex]
      (.requestCount : CostModel Rat) {} birthdayConfig).design.toOption.any
        (·.updates.map (·.support.length) == [1, 1]) = true := by decide +kernel
  obtain ⟨r, hr, hsupport⟩ := Option.any_eq_true _ _ |>.mp hdesigned
  have hok := Planner.toOption_eq_some_iff.mp hr
  obtain ⟨hrealized, hfits⟩ :=
    design_realizes keysDistinct_birthday .requestCount {} birthdayConfig hok
  exact ⟨keysDistinct_birthday, r, hok, eq_of_beq hsupport, hrealized, hfits 14400 rfl⟩

end Designer

end IndexDesign
