import IndexDesign.Proofs.Selection.Completeness
import IndexDesign.Proofs.Selection.Consistency

/-! # Where the parts of a problem come from

    Presolve and the numbering of variables only leave plans out.  So every
    plan of a problem is a plan of a query of the workload, or of a support
    query of a write and an index that it modifies, and every charge is that of
    maintaining such an index.  This needs no luck with keys.

    A design that is returned is read back from the assignment that the solver
    returns, part by part. -/

namespace IndexDesign

open ZeroOne

/-! ## Support queries -/

/-- A support query selects something, and counts as much as its write. -/
theorem Update.exists_of_mem_supportQueries {u : Update Rat} {i : Index}
    {queries : List (Query Rat)} (h : u.supportQueries i = some queries) {q : Query Rat}
    (hq : q ∈ queries) :
    ∃ graph select eq, select.isEmpty = false ∧ q = u.supportQuery i graph select eq := by
  unfold supportQueries at h
  split at h
  · rw [← Option.some.inj h] at hq
    exact nomatch hq
  · next hmissing =>
    split at h
    -- an insert asks part by part
    · obtain ⟨found, hfound, h⟩ := Option.bind_eq_some_iff.mp h
      rw [← Option.some.inj h] at hq
      obtain ⟨_, hmem, rfl⟩ := List.mem_filterMap.mp hq
      obtain ⟨part, -, hquery⟩ := exists_of_forall₂_right (forall₂_of_mapM_eq_some _ _ hfound) hmem
      simp only [partQuery] at hquery
      split at hquery
      · exact nomatch hquery
      · next hselect =>
        split at hquery
        · exact nomatch hquery
        · exact ⟨part, _, _, Bool.eq_false_iff.mpr hselect,
            (Option.some.inj (Option.some.inj hquery)).symm⟩
    all_goals
      split at h
      · exact nomatch h
      · rw [← Option.some.inj h] at hq
        exact ⟨_, _, _, Bool.eq_false_iff.mpr hmissing, List.mem_singleton.mp hq⟩

/-! ## Parts of problems -/

namespace Choice

/-- A choice that is numbered is about the plans of its query. -/
theorem exists_of_mem_number {costs : List (String × StatementCosts Rat)} {first : Nat}
    {c : Choice Rat} (h : c ∈ number first costs) : ∃ t ∈ costs, c.plans = t.2.plans :=
  exists_of_forall₂_left (forall₂_number costs first) h

end Choice

namespace SelectionProblem

/-- Every upkeep is that of an entry. -/
theorem exists_isUpkeepOf {candidates : List Index} {u : Upkeep Rat}
    (entries : List (MaintenanceCosts Rat × Nat)) :
    ∀ next, u ∈ upkeepOf (candidates.map (·.key)) next entries →
      ∃ t ∈ entries, ∃ first, IsUpkeepOf candidates first t.1 u := by
  induction entries with
  | nil => intro next h; exact nomatch h
  | cons t entries ih =>
      obtain ⟨e, n⟩ := t
      intro next h
      have hlater : ∀ first, u ∈ upkeepOf (candidates.map (·.key)) first entries →
          ∃ t ∈ (e, n) :: entries, ∃ first, IsUpkeepOf candidates first t.1 u := by
        intro first hu
        obtain ⟨t, ht, hentry⟩ := ih first hu
        exact ⟨t, List.mem_cons_of_mem _ ht, hentry⟩
      rcases upkeepOf_cons candidates next e n entries with ⟨-, hupkeep⟩ | ⟨v, hv, hupkeep⟩
      · rw [hupkeep] at h
        exact hlater next h
      · rw [hupkeep] at h
        rcases List.mem_cons.mp h with rfl | h
        · exact ⟨(e, n), List.mem_cons_self, next, hv⟩
        · exact hlater _ h

/-- The support plans of an upkeep are those of its entry, over the candidates. -/
theorem exists_of_mem_support {candidates : List Index} {first : Nat} {e : MaintenanceCosts Rat}
    {u : Upkeep Rat} (hu : IsUpkeepOf candidates first e u) {c : Choice Rat}
    (hc : c ∈ u.support.getD []) :
    ∃ costs, e.support = some costs ∧ ∃ k ∈ costs, ∀ plan ∈ c.plans,
      plan ∈ k.plans ∧ ∀ i ∈ plan.lookedUp, i.key ∈ candidates.map (·.key) := by
  obtain ⟨choices, hchoices, hc⟩ := exists_of_mem_getD hc
  obtain ⟨label, hsupport⟩ := hu.support
  rw [hsupport] at hchoices
  obtain ⟨restricted, hleft, rfl⟩ := Option.map_eq_some_iff.mp hchoices
  obtain ⟨costs, hcosts, rfl, -⟩ := supportOver_eq_some_iff.mp hleft
  obtain ⟨t, ht, hplans⟩ := Choice.exists_of_mem_number hc
  have hmem := List.mem_map_of_mem (f := (·.2)) ht
  rw [map_snd_labels] at hmem
  obtain ⟨k, hk, heq⟩ := List.mem_map.mp hmem
  refine ⟨costs, hcosts, k, hk, fun plan hplan => ?_⟩
  rw [hplans, ← heq] at hplan
  exact mem_retain.mp hplan

/-- A design that keeps all rules is read back, part by part, from values that solve the problem
    but for its slack. -/
structure IsReadBack (problem : SelectionProblem Rat) (a : Assignment Rat) (r : Design Rat) :
    Prop where
  solves : problem.withSlack.Solves a.value
  plans : List.Forall₂ (fun c p => c.Takes a.value (some p)) problem.queries r.plans
  indexes : r.indexes = chosenBy problem.indexes a.value
  updates : r.updates = problem.updatePlansOf a
  objective : r.objective = problem.program.objectiveValue a.values
  sound : r.fault? = none

/-- What is read back from an answer. -/
theorem isReadBack_of_designOf {problem : SelectionProblem Rat} {s : BranchAndBound}
    {a : Assignment Rat} {r : Design Rat} (hsolve : s.solve problem.program = .ok a)
    (hdesign : problem.designOf a = .ok r) (hsound : r.fault? = none) :
    problem.IsReadBack a r := by
  obtain ⟨hfeasible, hobjective⟩ := BranchAndBound.isSound_of_solve hsolve
  have hsolves : problem.withSlack.Solves a.value := solves_of_isFeasible hfeasible
  have hcounts : ∀ c ∈ problem.queries, c.count a.value = 1 := fun c hc => (hsolves.query c hc).1
  obtain ⟨plans, hread, htakes⟩ := plansOf_eq_ok hcounts
  obtain ⟨read, hplans, hdesign⟩ := exists_of_bind_eq_ok hdesign
  obtain rfl : plans = read := Except.ok.inj (hread.symm.trans hplans)
  obtain rfl := Except.ok.inj hdesign
  exact ⟨hsolves, htakes, rfl, rfl, hobjective, hsound⟩

end SelectionProblem

namespace Designer

variable {d : Designer Rat} {problem : SelectionProblem Rat}

/-- Every plan of the problem is one of the workload over the candidates, and every charge is one
    of the workload. -/
structure IsPosedBy (d : Designer Rat) (problem : SelectionProblem Rat) : Prop where
  numbered : problem.IsNumbered
  candidate : ∀ i ∈ problem.indexes, i ∈ d.planner.pool
  query : ∀ c ∈ problem.queries, ∃ q ∈ d.workload.queries, ∀ plan ∈ c.plans,
    d.planner.IsPlanOf q plan ∧ ∀ i ∈ plan.lookedUp, i.key ∈ problem.indexes.map (·.key)
  upkeep : ∀ u ∈ problem.upkeep, ∃ t ∈ modifications d.workload.updates d.planner.pool,
    u.maintenance = d.planner.maintain t.1 t.2
      ∧ SelectionProblem.variableOf? (problem.indexes.map (·.key)) t.2.key = some u.index
      ∧ ∀ c ∈ u.support.getD [], ∃ queries, t.1.supportQueries t.2 = some queries
        ∧ ∃ q ∈ queries, ∀ plan ∈ c.plans,
          d.planner.IsPlanOf q plan ∧ ∀ i ∈ plan.lookedUp, i.key ∈ problem.indexes.map (·.key)

/-- **PROBLEMS ARE ABOUT THE WORKLOAD**, whatever the keys of the candidates. -/
theorem isPosedBy_of_problem (h : d.problem = .ok problem) : d.IsPosedBy problem := by
  rcases d.problem_cases with ⟨e, herror⟩ | herror |
    ⟨queries, maintenance, kept, restricted, candidates, hcosts, hpresolved, hok⟩
  · exact nomatch h.symm.trans herror
  · exact nomatch h.symm.trans herror
  obtain rfl := Except.ok.inj (h.symm.trans hok)
  obtain ⟨hqueries, hmaintenance⟩ := costs_spec hcosts
  have hsub := hpresolved.candidatesSublist.trans hpresolved.sublist
  refine ⟨SelectionProblem.isNumbered_restrictTo _ _ _ _,
    fun i hi => Index.mem_of_mem_pool (hsub.subset hi), ?_, ?_⟩
  · intro c hc
    obtain ⟨t, ht, hplans⟩ := Choice.exists_of_mem_number hc
    have hmem := List.mem_map_of_mem (f := (·.2)) ht
    rw [SelectionProblem.map_snd_labelled] at hmem
    obtain ⟨k, hk, hiff⟩ := exists_of_forall₂_right hpresolved.plans hmem
    obtain ⟨q, hq, hof⟩ := exists_of_forall₂_right hqueries hk
    refine ⟨q, hq, fun plan hplan => ?_⟩
    rw [hplans] at hplan
    exact ⟨hof plan ((hiff plan).mp hplan).1, hpresolved.query _ hmem plan hplan⟩
  · intro u hu
    obtain ⟨⟨e, n⟩, ht, first, hupkeep⟩ := SelectionProblem.exists_isUpkeepOf _ _ hu
    obtain ⟨t, hmodifies, hentry⟩ :=
      exists_of_forall₂_right hmaintenance (List.fst_mem_of_mem_zipIdx ht)
    refine ⟨t, hmodifies, hupkeep.maintenance.trans hentry.maintenance, ?_, ?_⟩
    · have hindex := hupkeep.index
      rw [hentry.maintenance] at hindex
      exact hindex
    · intro c hc
      obtain ⟨costs, hcosts, k, hk, hplans⟩ := SelectionProblem.exists_of_mem_support hupkeep hc
      obtain ⟨queries, hqueries, hall⟩ := hentry.support costs hcosts
      obtain ⟨q, hq, hof⟩ := exists_of_forall₂_right hall hk
      refine ⟨queries, hqueries, q, hq, fun plan hplan => ?_⟩
      exact ⟨hof plan (hplans plan hplan).1, (hplans plan hplan).2⟩

theorem ok_of_mapError {ε ε' β : Type} {f : ε → ε'} {x : Except ε β} {y : β}
    (h : x.mapError f = .ok y) : x = .ok y := by
  cases x with
  | error e => exact nomatch h
  | ok z => exact congrArg Except.ok (Except.ok.inj h)

/-- **A DESIGN IS READ BACK** from what the solver answers. -/
theorem exists_of_design_eq_ok {r : Design Rat} (h : d.design = .ok r) :
    ∃ problem a, d.problem = .ok problem
      ∧ (BranchAndBound.ofLimit d.config.maxNodes).solve problem.program = .ok a
      ∧ problem.IsReadBack a r := by
  cases hproblem : d.problem with
  | error e => exact nomatch (design_eq_of_error hproblem).symm.trans h
  | ok problem =>
      rw [design_eq_of_ok hproblem] at h
      have hdesign := ok_of_mapError h
      unfold SelectionProblem.solve at hdesign
      cases hsolve : (BranchAndBound.ofLimit d.config.maxNodes).solve problem.program with
      | error e =>
          rw [hsolve] at hdesign
          cases e <;> exact nomatch hdesign
      | ok a =>
          rw [hsolve] at hdesign
          obtain ⟨design, hread, hdesign⟩ := exists_of_bind_eq_ok hdesign
          obtain ⟨_, hvalid, hdesign⟩ := exists_of_bind_eq_ok hdesign
          obtain rfl := Except.ok.inj hdesign
          have hsound : design.fault? = none := by
            unfold Design.validate at hvalid
            split at hvalid
            · exact nomatch hvalid
            · assumption
          exact ⟨problem, a, rfl, hsolve,
            SelectionProblem.isReadBack_of_designOf hsolve hread hsound⟩

end Designer

end IndexDesign
