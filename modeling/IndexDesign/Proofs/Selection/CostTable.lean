import IndexDesign.Proofs.Selection.Attribution
import IndexDesign.Selection.CostTable

/-! # The table that attribution keeps

    The table is at any time the one that the plans kept so far give, so to
    make it anew changes nothing.  A row has the cost by the first plan that
    looks its index up, which is what the index is found to cost where costs
    are collected from the plans.  So both ways drop the same plans and fail
    with the same errors. -/

namespace IndexDesign

variable {α : Type} [Scalar α]

namespace CostLedger

variable {c : CostLedger α} {p : Plan α} {index : Index}

/-! ## The rows of a table -/

/-- The table is that of the plans. -/
def IsBalanced (c : CostLedger α) : Prop := c.table = tableOf c.query.weight c.plans

theorem tableOf_append (weight : α) (plans : List (Plan α)) (p : Plan α) :
    tableOf weight (plans ++ [p])
      = (tableOf weight plans).extend (rowsOf weight plans.length p) := by
  rw [tableOf, tableOf, List.zipIdx_append, List.flatMap_append, SortedSet.extend_append,
    Nat.zero_add, List.zipIdx_singleton, List.flatMap_singleton]

theorem isBalanced_add (hc : c.IsBalanced) : (c.add p).IsBalanced := by
  show c.table.extend (rowsOf c.query.weight c.plans.length p)
    = tableOf c.query.weight (c.plans ++ [p])
  rw [hc, tableOf_append]

/-- Made anew, the table is what it was. -/
theorem retain_eq_self (hc : c.IsBalanced) {keep : Plan α → Bool}
    (hkeep : ∀ p ∈ c.plans, keep p = true) : c.retain keep = c := by
  rw [retain, List.filter_eq_self.mpr hkeep, ← hc]

theorem find?_rowsOf (weight : α) (position : Nat) (p : Plan α) (k : String) :
    (rowsOf weight position p).find? (key · == [k])
      = (p.runs.find? (·.index.key == k)).map fun run =>
          ⟨run.index, run.cost * weight, position⟩ := by
  rw [rowsOf, List.find?_map]
  congr 2
  funext run
  simp [key]

/-- Of the plans, the one at the position is the first that looks the index of the key up, in the
    given run. -/
structure IsFirst (plans : List (Plan α)) (k : String) (position : Nat) (p : Plan α)
    (run : PlanRun α) : Prop where
  plan : plans[position]? = some p
  run : p.runs.find? (·.index.key == k) = some run
  before : ∀ earlier ∈ plans.take position, ∀ r ∈ earlier.runs, r.index.key ≠ k

/-- A row is that of the first plan which looks its index up. -/
theorem isFirst_of_row? (hc : c.IsBalanced) {row : CostRow α} (h : c.row? index = some row) :
    ∃ p run, IsFirst c.plans index.key row.plan p run
      ∧ row = ⟨run.index, run.cost * c.query.weight, row.plan⟩ := by
  rw [row?, hc, tableOf, SortedSet.find?_extend_empty, List.find?_flatMap] at h
  obtain ⟨before, ⟨p, i⟩, after, hsplit, hfound, hnone⟩ := List.findSome?_eq_some_iff.mp h
  obtain ⟨earlier, later, hplans, rfl, hlater⟩ := List.zipIdx_eq_append_iff.mp hsplit
  obtain ⟨p', rest, rfl, hhead, -⟩ := List.zipIdx_eq_cons_iff.mp hlater.symm
  obtain ⟨rfl, rfl⟩ := Prod.mk.inj hhead
  rw [find?_rowsOf, Option.map_eq_some_iff] at hfound
  obtain ⟨run, hrun, rfl⟩ := hfound
  refine ⟨p, run, ⟨?_, hrun, ?_⟩, rfl⟩
  · rw [hplans, Nat.zero_add, List.getElem?_append_right (Nat.le_refl _), Nat.sub_self]
    rfl
  · intro other hother r hr hkey
    rw [hplans, Nat.zero_add, List.take_left] at hother
    obtain ⟨j, hj⟩ := List.mem_iff_getElem?.mp hother
    have hnothing := hnone (other, j) (List.mk_mem_zipIdx_iff_getElem?.mpr hj)
    rw [find?_rowsOf, Option.map_eq_none_iff, List.find?_eq_none] at hnothing
    exact hnothing r hr (beq_iff_eq.mpr hkey)

/-- The row has the index and the cost of the entry, and the position of its plan. -/
structure IsRowOf (plans : List (Plan α)) (row : CostRow α) (e : CostEntry α) : Prop where
  index : row.index = e.run.index
  cost : row.cost = e.cost
  plan : plans[row.plan]? = some e.plan

/-- The table says what the plans say. -/
theorem forall₂_table (hc : c.IsBalanced) (hplans : ∀ p ∈ c.plans, p.query = c.query) :
    List.Forall₂ (IsRowOf c.plans) c.table.toList c.costs.table.toList := by
  have hentries : c.plans.flatMap StatementCosts.entriesOf
      = c.plans.zipIdx.flatMap fun x => StatementCosts.entriesOf x.1 := by
    rw [← List.flatMap_map Prod.fst, List.zipIdx_map_fst]
  have hrows : ∀ x ∈ c.plans.zipIdx, List.Forall₂ (IsRowOf c.plans)
      (rowsOf c.query.weight x.2 x.1) (StatementCosts.entriesOf x.1) := by
    intro x hx
    have hplan := List.mem_zipIdx_iff_getElem?.mp hx
    rw [rowsOf, StatementCosts.entriesOf, List.forall₂_map_left_iff, List.forall₂_map_right_iff,
      List.forall₂_same]
    intro run _
    refine ⟨rfl, ?_, hplan⟩
    rw [CostEntry.cost, hplans x.1 (List.mem_of_getElem? hplan)]
  rw [hc, tableOf, StatementCosts.table]
  refine SortedSet.forall₂_extend (fun row e h => ?_) ?_ ∅ ∅ .nil
  · show [row.index.key] = [e.run.index.key]
    rw [h.index]
  · show List.Forall₂ _ _ (c.plans.flatMap StatementCosts.entriesOf)
    rw [hentries]
    exact List.rel_flatMap (R := fun x y => x = y ∧ x ∈ c.plans.zipIdx)
      (List.forall₂_same.mpr fun x hx => ⟨rfl, hx⟩) fun x y h => h.1 ▸ hrows x h.2

theorem rel_row? (hc : c.IsBalanced) (hplans : ∀ p ∈ c.plans, p.query = c.query) :
    Option.Rel (IsRowOf c.plans) (c.row? index) (c.costs.entryOf? index) := by
  rw [StatementCosts.entryOf?_eq_find?_table]
  refine SortedSet.rel_find? (fun row e h => ?_) (forall₂_table hc hplans) _
  show [row.index.key] = [e.run.index.key]
  rw [h.index]

/-! ## Collected costs -/

theorem escalates_eq {e : CostEntry α} {run : PlanRun α}
    (h : e.plan.runs.find? (·.index.key == run.index.key) = some e.run) :
    escalates e.plan p run = StatementCosts.isContradiction e ⟨run, p⟩ := by
  rw [escalates, StatementCosts.isContradiction, h]
  cases e.plan.hasFilter <;> cases p.hasFilter <;> rfl

/-- A disagreement with a row is one with the entry of the row's index. -/
structure IsConflictOf (c : CostLedger α) (p : Plan α) (conflict : CostRow α × PlanRun α)
    (collected : CostEntry α × CostEntry α) : Prop where
  row : IsRowOf c.plans conflict.1 collected.1
  found : collected.2 = ⟨conflict.2, p⟩
  run : collected.1.plan.runs.find? (·.index.key == conflict.2.index.key) = some collected.1.run

theorem rel_conflict? (tolerance : α) (hc : c.IsBalanced)
    (hplans : ∀ p ∈ c.plans, p.query = c.query) (hp : p.query = c.query) :
    Option.Rel (c.IsConflictOf p) (c.conflict? tolerance p) (c.costs.conflict? tolerance p) := by
  rw [conflict?, StatementCosts.conflict?, StatementCosts.entriesOf, List.findSome?_map]
  refine rel_findSome? p.runs fun run _ => ?_
  have hrow := @rel_row? α _ c run.index hc hplans
  show Option.Rel _ _ ((c.costs.entryOf? run.index).bind _)
  cases hfound : c.costs.entryOf? run.index with
  | none =>
      rw [hfound] at hrow
      generalize c.row? run.index = row at hrow ⊢
      cases hrow
      exact .none
  | some e =>
      rw [hfound] at hrow
      generalize c.row? run.index = row at hrow ⊢
      cases hrow with
      | @some row _ hrow =>
        have hcost : run.cost * c.query.weight = CostEntry.cost ⟨run, p⟩ := by
          rw [CostEntry.cost, hp]
        rw [Option.bind_some, Option.bind_some, hrow.cost, hcost]
        split
        · exact .none
        · exact .some ⟨hrow, rfl, StatementCosts.find?_runs_of_entryOf? hfound⟩

/-- One plan more is kept, dropped or an error as where costs are collected. -/
theorem absorb_costs (tolerance : α) (hc : c.IsBalanced)
    (hplans : ∀ p ∈ c.plans, p.query = c.query) (hp : p.query = c.query) :
    (c.absorb tolerance p).map costs = c.costs.absorb tolerance p := by
  have hrel := rel_conflict? tolerance hc hplans hp
  rw [absorb, StatementCosts.absorb]
  generalize c.conflict? tolerance p = conflict, c.costs.conflict? tolerance p = collected
    at hrel ⊢
  cases hrel with
  | none => rfl
  | @some conflict collected h =>
    obtain ⟨row, run⟩ := conflict
    obtain ⟨existing, found⟩ := collected
    obtain ⟨hrow, rfl, hrun⟩ := h
    have hplan : c.plans[row.plan]? = some existing.plan := hrow.plan
    have hcost : row.cost = existing.cost := hrow.cost
    have hfound : run.cost * c.query.weight = CostEntry.cost ⟨run, p⟩ := by
      rw [CostEntry.cost, hp]
    simp only [hplan, Option.any_some, escalates_eq hrun, hcost, hfound]
    split <;> rfl

theorem of_absorb {tolerance : α} {next : CostLedger α} (h : c.absorb tolerance p = .ok next) :
    (c.conflict? tolerance p = none ∧ next = c.add p)
      ∨ ∃ row run, c.conflict? tolerance p = some (row, run)
          ∧ next = { c with pruned := c.pruned + 1 } := by
  rw [absorb] at h
  split at h
  · next hnone => exact .inl ⟨hnone, (Except.ok.inj h).symm⟩
  · next row run hconflict =>
    split at h
    · exact nomatch h
    · exact .inr ⟨row, run, hconflict, (Except.ok.inj h).symm⟩

theorem foldlM_absorb_costs (tolerance : α) (plans : List (Plan α)) :
    ∀ c : CostLedger α, c.IsBalanced → (∀ p ∈ c.plans, p.query = c.query) →
      (∀ p ∈ plans, p.query = c.query) →
        (plans.foldlM (absorb tolerance) c).map costs
          = plans.foldlM (StatementCosts.absorb tolerance) c.costs := by
  induction plans with
  | nil => intro c _ _ _; rfl
  | cons p plans ih =>
      intro c hc hkept hplans
      obtain ⟨hp, hplans⟩ := List.forall_mem_cons.mp hplans
      rw [List.foldlM_cons, List.foldlM_cons, ← absorb_costs tolerance hc hkept hp]
      cases hnext : c.absorb tolerance p with
      | error e => rfl
      | ok next =>
          rcases of_absorb hnext with ⟨-, rfl⟩ | ⟨row, run, -, rfl⟩
          · refine ih _ (isBalanced_add hc) (fun x hx => ?_) hplans
            rcases List.mem_append.mp hx with hx | hx
            · exact hkept x hx
            · rw [List.mem_singleton.mp hx]
              exact hp
          · exact ih _ hc hkept hplans

/-- **THE TABLE SAYS WHAT IS COLLECTED**: the plans of a tree are kept and dropped with the table
    as they are without, and fail with the same error. -/
theorem ofPlans_costs (tolerance : α) {tree : PlanTree α}
    (hplans : ∀ p ∈ tree.plans, p.query = tree.query) :
    (ofPlans tolerance tree.query tree.plans).map costs
      = StatementCosts.ofTree tolerance tree := by
  refine foldlM_absorb_costs tolerance _ ⟨tree.query, [], ∅, 0⟩ rfl (fun _ hp => nomatch hp) ?_
  intro p hp
  exact hplans p (List.mem_mergeSort.mp hp)

end CostLedger

end IndexDesign
