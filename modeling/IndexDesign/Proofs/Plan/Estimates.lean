import IndexDesign.Proofs.Plan.LookedUp
import IndexDesign.Proofs.Selection.Meaning

/-! # Estimates are not negative

    A cost model is asked for prices at estimated numbers of rows and lookups
    only.  These start at counts and are multiplied by shares, cut to limits
    and raised to one, none of which makes them negative.  So a model whose
    prices are not negative at such numbers prices every step of every plan,
    and every step of maintenance, at zero or more. -/

namespace IndexDesign

/-! ## Cost models -/

/-- No price is negative at numbers of rows and lookups that are not. -/
structure CostModel.IsNonNegative (costs : CostModel Rat) : Prop where
  lookup : ∀ index lookups rows, 0 ≤ lookups → 0 ≤ rows → 0 ≤ costs.lookup index lookups rows
  filter : ∀ rows conditions, 0 ≤ rows → 0 ≤ costs.filter rows conditions
  sort : ∀ rows fields, 0 ≤ rows → 0 ≤ costs.sort rows fields
  limit : ∀ rows limit, 0 ≤ rows → 0 ≤ costs.limit rows limit
  aggregate : ∀ rows aggregates groups, 0 ≤ rows → 0 ≤ costs.aggregate rows aggregates groups
  insert : ∀ index rows, 0 ≤ rows → 0 ≤ costs.insert index rows
  delete : ∀ index rows, 0 ≤ rows → 0 ≤ costs.delete index rows
  load : ∀ index, 0 ≤ costs.load index

theorem Scalar.ofCount_nonneg (n : Nat) : (0 : Rat) ≤ Scalar.ofCount n := Nat.cast_nonneg n

/-- Raised to one, a number is positive. -/
theorem Scalar.max_one_nonneg (x : Rat) : 0 ≤ Scalar.max x Scalar.one := by
  rw [Scalar.max_rat, Scalar.one_rat]
  exact le_trans zero_le_one (le_max_right x 1)

/-- Moved between two numbers that are not negative, no number is. -/
theorem Scalar.clamp_nonneg {low high : Rat} (hlow : 0 ≤ low) (hhigh : 0 ≤ high) (x : Rat) :
    0 ≤ Scalar.clamp low high x := by
  have hraised : 0 ≤ if x < low then low else x := by
    by_cases hx : x < low
    · rwa [if_pos hx]
    · rw [if_neg hx]
      exact le_trans hlow (not_lt.mp hx)
  unfold Scalar.clamp
  generalize (if x < low then low else x) = raised at hraised
  dsimp only
  split
  · exact hhigh
  · exact hraised

@[simp] theorem Scalar.product_rat (xs : List Rat) : Scalar.product xs = xs.prod := by
  rw [List.prod_eq_foldl]
  show xs.foldl (· * ·) Scalar.one = _
  rw [Scalar.one_rat]

namespace Index

variable (i : Index)

theorem partitionCount_nonneg : (0 : Rat) ≤ i.partitionCount :=
  Scalar.clamp_nonneg (Scalar.one_rat.ge.trans' zero_le_one)
    (le_trans zero_le_one i.entries_spec.2) _

theorem perPartition_nonneg : (0 : Rat) ≤ i.perPartition :=
  div_nonneg (le_trans zero_le_one i.entries_spec.2) i.partitionCount_nonneg

end Index

namespace CostModel

/-- Counting requests is never negative. -/
theorem isNonNegative_requestCount : (requestCount : CostModel Rat).IsNonNegative where
  lookup _ lookups _ _ _ := Scalar.max_one_nonneg lookups
  filter _ _ _ := Scalar.zero_rat.ge
  sort _ _ _ := Scalar.zero_rat.ge
  limit _ _ _ := Scalar.zero_rat.ge
  aggregate _ _ _ _ := Scalar.zero_rat.ge
  insert _ rows _ := Scalar.max_one_nonneg rows
  delete _ rows _ := Scalar.max_one_nonneg rows
  load index := index.partitionCount_nonneg

/-- Unit costs that pass their check are never negative, if no sort takes fewer comparisons than
    none. -/
theorem isNonNegative_ofUnitCosts {log2 : Rat → Rat} {c : UnitCosts Rat}
    (hlog : ∀ n, 2 ≤ n → 0 ≤ log2 n) (hc : c.firstNegative? = none) :
    (ofUnitCosts log2 c).IsNonNegative := by
  have hall : ∀ name cost, (name, cost) ∈ c.named → 0 ≤ cost := by
    intro name cost hmem
    have hpasses := List.find?_eq_none.mp hc _ hmem
    rw [Bool.not_eq_true', Bool.not_eq_false, decide_eq_true_iff, Scalar.zero_rat] at hpasses
    exact hpasses
  have hrequest : 0 ≤ c.request := hall "request_cost" _ (by simp [UnitCosts.named])
  have hrow : 0 ≤ c.row := hall "row_cost" _ (by simp [UnitCosts.named])
  have hbyte : 0 ≤ c.byte := hall "byte_cost" _ (by simp [UnitCosts.named])
  have hcpu : 0 ≤ c.cpuRow := hall "cpu_row_cost" _ (by simp [UnitCosts.named])
  have hsort : 0 ≤ c.sortComparison := hall "sort_comparison_cost" _ (by simp [UnitCosts.named])
  have haggregate : 0 ≤ c.aggregateRow := hall "aggregate_row_cost" _ (by simp [UnitCosts.named])
  have hwrite : 0 ≤ c.writeRequest := hall "write_request_cost" _ (by simp [UnitCosts.named])
  have hbytes : ∀ index : Index, 0 ≤ Scalar.ofCount index.entrySize * c.byte := fun index =>
    mul_nonneg (Scalar.ofCount_nonneg _) hbyte
  have hread : ∀ (index : Index) rows, 0 ≤ rows → 0 ≤ c.read index rows := fun index rows hrows =>
    mul_nonneg hrows (add_nonneg hrow (hbytes index))
  constructor
  · intro index lookups rows _ hrows
    exact add_nonneg (mul_nonneg (Scalar.max_one_nonneg _) hrequest) (hread index rows hrows)
  · intro rows n hrows
    exact mul_nonneg (mul_nonneg hrows (Scalar.ofCount_nonneg _)) hcpu
  · intro rows n hrows
    have htwo : (2 : Rat) ≤ Scalar.max rows (Scalar.ofCount 2) := by
      rw [Scalar.max_rat]
      exact le_max_right rows 2
    exact mul_nonneg (mul_nonneg (mul_nonneg (by linarith) (hlog _ htwo))
      (Scalar.ofCount_nonneg _)) hsort
  · intro rows n hrows
    refine mul_nonneg ?_ hcpu
    rw [Scalar.min_rat]
    exact le_min hrows (Scalar.ofCount_nonneg n)
  · intro rows aggregates groups hrows
    exact mul_nonneg (mul_nonneg hrows (Scalar.ofCount_nonneg _)) haggregate
  · intro index rows _
    exact mul_nonneg (Scalar.max_one_nonneg _) (add_nonneg hwrite (hbytes index))
  · intro index rows _
    exact mul_nonneg (Scalar.max_one_nonneg _) hwrite
  · intro index
    exact add_nonneg (mul_nonneg index.partitionCount_nonneg hwrite)
      (hread index _ (le_trans zero_le_one index.entries_spec.2))

end CostModel

/-! ## Estimates -/

namespace Selectivity

theorem apply_nonneg {rows : Rat} (hrows : 0 ≤ rows) (eq inRange : List Field) :
    0 ≤ apply rows eq inRange := by
  rw [apply, Scalar.product_rat, Scalar.product_rat]
  refine mul_nonneg (mul_nonneg hrows ?_) ?_
  · refine List.prod_nonneg ?_
    intro x hx
    obtain ⟨f, -, rfl⟩ := List.mem_map.mp hx
    rw [equality, Scalar.one_rat]
    exact div_nonneg zero_le_one (Scalar.ofCount_nonneg _)
  · refine List.prod_nonneg ?_
    intro x hx
    obtain ⟨f, -, rfl⟩ := List.mem_map.mp hx
    exact div_nonneg (Nat.cast_nonneg 1) (Nat.cast_nonneg _)

theorem grouped_nonneg (rows : Rat) (groups : List Field) : 0 ≤ grouped rows groups := by
  unfold grouped
  split
  · rw [Scalar.one_rat]
    exact zero_le_one
  · exact Scalar.max_one_nonneg _

/-- Grouping rows within a limit of at least one leaves rows within it. -/
theorem grouped_le {rows limit : Rat} (groups : List Field) (hone : 1 ≤ limit)
    (hrows : rows ≤ limit) : grouped rows groups ≤ limit := by
  unfold grouped
  split
  · rw [Scalar.one_rat]
    exact hone
  · rw [Scalar.max_rat, Scalar.min_rat, Scalar.one_rat]
    exact sup_le (inf_le_right.trans hrows) hone

end Selectivity

/-- The estimates of the state are not negative. -/
structure PlanState.IsNonNegative (s : PlanState Rat) : Prop where
  rows : 0 ≤ s.rows
  lookups : 0 ≤ s.lookups

namespace PlanState

variable {s : PlanState Rat}

theorem isNonNegative_start (q : Query Rat) : (start q).IsNonNegative := by
  refine ⟨?_, ?_⟩
  · show 0 ≤ Option.elim _ Scalar.one _
    cases q.joinOrder.head?.bind q.graph.entity? with
    | none => exact Scalar.one_rat.ge.trans' zero_le_one
    | some e => exact Scalar.ofCount_nonneg _
  · exact Scalar.one_rat.ge.trans' zero_le_one

theorem IsNonNegative.settleGraph (h : s.IsNonNegative) : s.settleGraph.IsNonNegative := by
  obtain ⟨graph, joins, heq⟩ := settleGraph_eq s
  rw [heq]
  exact ⟨h.rows, h.lookups⟩

theorem IsNonNegative.settleLimit (h : s.IsNonNegative) : s.settleLimit.IsNonNegative := by
  unfold PlanState.settleLimit
  split
  · split
    · refine ⟨?_, h.lookups⟩
      rw [Scalar.min_rat]
      exact le_min h.rows (Scalar.ofCount_nonneg _)
    · exact h
  · exact h

theorem lookupsOf_nonneg (s : PlanState Rat) (index : Index) : 0 ≤ s.lookupsOf index := by
  unfold lookupsOf
  split
  · rw [Scalar.one_rat]
    exact zero_le_one
  · exact Scalar.max_one_nonneg _

theorem isNonNegative_afterLookup (s : PlanState Rat) (index : Index) (covered : List String) :
    (s.afterLookup index covered).IsNonNegative := by
  rw [afterLookup_eq_settle]
  refine IsNonNegative.settleLimit (IsNonNegative.settleGraph ⟨?_, s.lookupsOf_nonneg index⟩)
  exact Selectivity.apply_nonneg
    (mul_nonneg (s.lookupsOf_nonneg index) index.perPartition_nonneg) _ _

end PlanState

/-! ## Steps -/

/-- Neither the cost of the step nor the estimates of its state are negative. -/
structure Transition.IsNonNegative (t : Transition Rat) : Prop where
  cost : 0 ≤ t.step.cost
  state : t.state.IsNonNegative

namespace Transition

variable {costs : CostModel Rat} {s : PlanState Rat} {next : Transition Rat}
  (hcosts : costs.IsNonNegative)

include hcosts

theorem isNonNegative_filter (hs : s.IsNonNegative) (h : filter costs s = .ok next) :
    next.IsNonNegative := by
  simp only [filter] at h
  split at h
  · cases h
  · split at h
    · cases h
    · rw [← Except.ok.inj h]
      exact ⟨hcosts.filter _ _ hs.rows,
        PlanState.IsNonNegative.settleGraph ⟨Selectivity.apply_nonneg hs.rows _ _, hs.lookups⟩⟩

theorem isNonNegative_sort (hs : s.IsNonNegative) (h : sort costs s = .ok next) :
    next.IsNonNegative := by
  unfold sort at h
  split at h
  · exact nomatch h
  · split at h
    · exact nomatch h
    · rw [← Except.ok.inj h]
      exact ⟨hcosts.sort _ _ hs.rows, hs.rows, hs.lookups⟩

theorem isNonNegative_limit (hs : s.IsNonNegative) (h : Transition.limit costs s = .ok next) :
    next.IsNonNegative := by
  unfold Transition.limit at h
  split at h
  · cases h
  · split at h
    · cases h
    · split at h
      · cases h
      · rw [← Except.ok.inj h]
        exact ⟨hcosts.limit _ _ hs.rows, Scalar.ofCount_nonneg _, hs.lookups⟩

theorem isNonNegative_aggregate (hs : s.IsNonNegative) (h : aggregate costs s = .ok next) :
    next.IsNonNegative := by
  unfold aggregate at h
  split at h
  · exact nomatch h
  · split at h
    · exact nomatch h
    · split at h
      · exact nomatch h
      · rw [← Except.ok.inj h]
        exact ⟨hcosts.aggregate _ _ _ hs.rows, Selectivity.grouped_nonneg _ _, hs.lookups⟩

omit hcosts in
/-- A lookup is priced at the estimates of the state that it leads to. -/
theorem cost_of_lookup {context : LookupContext} {index : Index}
    (h : lookup costs s context index = .ok next) :
    next.step.cost = costs.lookup index next.state.lookups next.state.rows := by
  unfold lookup at h
  cases hcovered : s.coverage index with
  | error e => rw [hcovered] at h; exact nomatch h
  | ok covered =>
      rw [hcovered] at h
      dsimp only [bind, Except.bind] at h
      -- one check after the other, as they are made
      split at h
      · exact nomatch h
      · split at h
        · exact nomatch h
        · split at h
          · exact nomatch h
          · split at h
            · exact nomatch h
            · split at h
              · exact nomatch h
              · split at h
                · exact nomatch h
                · rw [← Except.ok.inj h]

theorem isNonNegative_lookup {context : LookupContext} {index : Index}
    (h : lookup costs s context index = .ok next) : next.IsNonNegative := by
  obtain ⟨covered, hlookup⟩ := lookup_spec h
  have hstate : next.state.IsNonNegative := by
    rw [hlookup.state]
    exact s.isNonNegative_afterLookup index covered
  refine ⟨?_, hstate⟩
  rw [cost_of_lookup h]
  exact hcosts.lookup _ _ _ hstate.lookups hstate.rows

end Transition

/-! ## Plans and maintenance -/

namespace Planner

variable {p : Planner Rat} {path : List (Step Rat)} {t next : Transition Rat} {q : Query Rat}
  {plan : Plan Rat} (hcosts : p.costs.IsNonNegative)

include hcosts

/-- **ESTIMATES STAY NOT NEGATIVE**: so does the price of every step that is taken on them. -/
theorem isNonNegative_of_follows (ht : t.state.IsNonNegative) (h : p.Follows path t next) :
    next.IsNonNegative := by
  cases h with
  | filter h => exact Transition.isNonNegative_filter hcosts ht h
  | sort h => exact Transition.isNonNegative_sort hcosts ht h
  | limit h => exact Transition.isNonNegative_limit hcosts ht h
  | aggregate h => exact Transition.isNonNegative_aggregate hcosts ht h
  | lookup index _ _ _ h => exact Transition.isNonNegative_lookup hcosts h

/-- No step of a plan has a negative cost. -/
theorem cost_nonneg_of_isPlanOf (h : p.IsPlanOf q plan) : ∀ step ∈ plan.steps, 0 ≤ step.cost := by
  obtain ⟨tree, htree, hplan⟩ := h
  obtain ⟨run, -, rfl, hrun⟩ := exists_run_of_mem_plans htree hplan
  have hrun := holds_of_isRun
    (fun path t => t.state.IsNonNegative ∧ ∀ step ∈ path, 0 ≤ step.cost)
    (fun ht hfollows => by
      have hnext := isNonNegative_of_follows hcosts ht.1 hfollows
      exact ⟨hnext.state, List.forall_mem_cons.mpr ⟨hnext.cost, ht.2⟩⟩)
    run [] (Transition.start q)
    ⟨PlanState.isNonNegative_start q, fun _ hstep => nomatch hstep⟩ hrun
  intro step hstep
  refine hrun.2 step ?_
  rw [List.append_nil]
  exact List.mem_reverse.mpr hstep

omit hcosts in
theorem touchedRows_nonneg (u : Update Rat) (support : Option (List (PlanTree Rat))) :
    0 ≤ touchedRows u support := by
  have hone : (0 : Rat) ≤ Scalar.one := Scalar.one_rat.ge.trans' zero_le_one
  unfold touchedRows
  split
  · exact hone
  · exact hone
  · exact hone
  · exact Scalar.max_one_nonneg _

/-- Maintaining an index for a write of a weight that is not negative costs nothing below
    zero. -/
theorem weightedCost_maintain_nonneg {u : Update Rat} (hu : 0 ≤ u.weight) (index : Index) :
    0 ≤ (p.maintain u index).weightedCost := by
  have hrows := touchedRows_nonneg u (p.support? u index)
  refine mul_nonneg ?_ hu
  rw [Maintenance.cost, Scalar.sum_rat]
  refine List.sum_nonneg ?_
  show ∀ x ∈ (p.maintenanceSteps u index _).map (·.cost), 0 ≤ x
  unfold maintenanceSteps
  have hinsert := hcosts.insert index _ hrows
  have hdelete := hcosts.delete index _ hrows
  cases u.kind with
  | insert => exact List.forall_mem_singleton.mpr hinsert
  | delete => exact List.forall_mem_singleton.mpr hdelete
  | update => exact List.forall_mem_cons.mpr ⟨hdelete, List.forall_mem_singleton.mpr hinsert⟩

end Planner

end IndexDesign
