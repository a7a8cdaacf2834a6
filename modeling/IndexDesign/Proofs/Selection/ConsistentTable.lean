import IndexDesign.Proofs.Exact
import IndexDesign.Proofs.Index.Pool
import IndexDesign.Proofs.Plan.LookedUp
import IndexDesign.Proofs.Selection.CostTable

/-! # The table and its plans are consistent

    Plans are taken in the order of their costs, and one that is kept adds the
    rows which are not there.  What is said of the plans taken so far holds
    again with one plan more: a row stays, so the plans that are kept agree
    with it to the end, and those that are dropped do not.  The cheapest plan
    finds an empty table and is kept. -/

namespace IndexDesign.CostLedger

variable {tolerance : Rat} {q : Query Rat} {taken : List (Plan Rat)} {c next : CostLedger Rat}
  {p : Plan Rat}

/-- The costs are too far apart to agree. -/
def Differs (tolerance existing found : Rat) : Prop :=
  tolerance * max |existing| 1 < |existing - found|

theorem agree_iff {existing found : Rat} :
    StatementCosts.agree tolerance existing found = true ↔ ¬ Differs tolerance existing found := by
  simp only [StatementCosts.agree, Differs, Scalar.abs_rat, Scalar.max_rat, Scalar.one_rat,
    decide_eq_true_eq, not_lt]

/-- A run of the plan differs from the row of its index, which a plan gave that is no dearer. -/
def Rejects (tolerance : Rat) (c : CostLedger Rat) (p : Plan Rat) : Prop :=
  ∃ run ∈ p.runs, ∃ row, c.row? run.index = some row
    ∧ Differs tolerance row.cost (run.cost * c.query.weight)
    ∧ ∃ cheaper, c.plans[row.plan]? = some cheaper ∧ cheaper.cost ≤ p.cost

/-- What holds of the costs after some plans have been taken. -/
structure Accounts (tolerance : Rat) (q : Query Rat) (taken : List (Plan Rat))
    (c : CostLedger Rat) : Prop where
  query : c.query = q
  balanced : c.IsBalanced
  survivors : c.plans.Sublist taken
  cheapest : c.plans.head? = taken.head?
  agreed : ∀ p ∈ c.plans, ∀ run ∈ p.runs, ∃ row, c.row? run.index = some row
    ∧ ¬ Differs tolerance row.cost (run.cost * c.query.weight)
  removed : ∃ removed, removed.Sublist taken ∧ (c.plans ++ removed).Perm taken
    ∧ removed.length = c.pruned ∧ ∀ p ∈ removed, c.Rejects tolerance p

theorem accounts_start : Accounts tolerance q [] ⟨q, [], ∅, 0⟩ :=
  ⟨rfl, rfl, .refl _, rfl, (fun _ hp => nomatch hp),
    [], .refl _, .refl _, rfl, (fun _ hp => nomatch hp)⟩

/-! ## A plan that is kept -/

theorem row?_add (index : Index) : (c.add p).row? index
    = (c.row? index).or ((p.runs.find? (·.index.key == index.key)).map fun run =>
        ⟨run.index, run.cost * c.query.weight, c.plans.length⟩) := by
  rw [row?, row?, ← find?_rowsOf, ← SortedSet.find?_extend]
  rfl

/-- Rows stay. -/
theorem row?_add_of_some {index : Index} {row : CostRow Rat} (h : c.row? index = some row) :
    (c.add p).row? index = some row := by
  rw [row?_add, h, Option.some_or]

theorem rejects_add {x : Plan Rat} (h : c.Rejects tolerance x) :
    (c.add p).Rejects tolerance x := by
  obtain ⟨run, hrun, row, hrow, hdiffers, cheaper, hcheaper, hle⟩ := h
  refine ⟨run, hrun, row, row?_add_of_some hrow, hdiffers, cheaper, ?_, hle⟩
  have hlt : row.plan < c.plans.length := (List.getElem?_eq_some_iff.mp hcheaper).1
  show (c.plans ++ [p])[row.plan]? = some cheaper
  rw [List.getElem?_append_left hlt, hcheaper]

theorem not_differs_self (htolerance : 0 ≤ tolerance) (x : Rat) : ¬ Differs tolerance x x :=
  agree_iff.mp (StatementCosts.agree_self htolerance x)

theorem not_differs_of_conflict?_none (h : c.conflict? tolerance p = none) {run : PlanRun Rat}
    (hrun : run ∈ p.runs) {row : CostRow Rat} (hrow : c.row? run.index = some row) :
    ¬ Differs tolerance row.cost (run.cost * c.query.weight) := by
  have hnone := List.findSome?_eq_none_iff.mp h run hrun
  rw [hrow, Option.bind_some] at hnone
  split at hnone
  · next hagree => exact agree_iff.mp hagree
  · exact nomatch hnone

/-- The runs of a plan that is kept agree with the rows: those of indexes which have no row yet
    become the rows. -/
theorem agreed_add (htolerance : 0 ≤ tolerance) (hnodup : (p.runs.map (·.index.key)).Nodup)
    (h : c.conflict? tolerance p = none) {run : PlanRun Rat} (hrun : run ∈ p.runs) :
    ∃ row, (c.add p).row? run.index = some row
      ∧ ¬ Differs tolerance row.cost (run.cost * c.query.weight) := by
  cases hrow : c.row? run.index with
  | some row =>
      exact ⟨row, row?_add_of_some hrow, not_differs_of_conflict?_none h hrun hrow⟩
  | none =>
      have hfirst : p.runs.find? (·.index.key == run.index.key) = some run := by
        have hsome : (p.runs.find? (·.index.key == run.index.key)).isSome = true :=
          List.find?_isSome.mpr ⟨run, hrun, beq_self_eq_true _⟩
        obtain ⟨other, hother⟩ := Option.isSome_iff_exists.mp hsome
        have hkey := List.find?_some hother
        rw [hother, List.inj_on_of_nodup_map hnodup (List.mem_of_find?_eq_some hother) hrun
          (eq_of_beq hkey)]
      refine ⟨⟨run.index, run.cost * c.query.weight, c.plans.length⟩, ?_,
        not_differs_self htolerance _⟩
      rw [row?_add, hrow, hfirst, Option.none_or, Option.map_some]

theorem accounts_add (htolerance : 0 ≤ tolerance) (hc : c.Accounts tolerance q taken)
    (hnodup : (p.runs.map (·.index.key)).Nodup) (h : c.conflict? tolerance p = none) :
    (c.add p).Accounts tolerance q (taken ++ [p]) := by
  refine ⟨hc.query, isBalanced_add hc.balanced, hc.survivors.append (.refl _), ?_,
    fun x hx run hrun => ?_, ?_⟩
  · show (c.plans ++ [p]).head? = (taken ++ [p]).head?
    rw [List.head?_append, List.head?_append, hc.cheapest]
  · rcases List.mem_append.mp hx with hx | hx
    · obtain ⟨row, hrow, hagreed⟩ := hc.agreed x hx run hrun
      exact ⟨row, row?_add_of_some hrow, hagreed⟩
    · rw [List.mem_singleton.mp hx] at hrun
      exact agreed_add htolerance hnodup h hrun
  · obtain ⟨removed, hsub, hperm, hlength, hrejects⟩ := hc.removed
    refine ⟨removed, hsub.trans (List.sublist_append_left _ _), ?_, hlength,
      fun x hx => rejects_add (hrejects x hx)⟩
    show (c.plans ++ [p] ++ removed).Perm (taken ++ [p])
    rw [List.append_assoc]
    exact (List.perm_append_comm.append_left c.plans).trans
      ((List.append_assoc c.plans removed [p]).symm ▸ hperm.append_right [p])

/-! ## A plan that is dropped -/

theorem rejects_of_conflict? (hc : c.Accounts tolerance q taken)
    (hcheap : ∀ x ∈ taken, x.cost ≤ p.cost) {row : CostRow Rat} {run : PlanRun Rat}
    (h : c.conflict? tolerance p = some (row, run)) : c.Rejects tolerance p := by
  obtain ⟨other, hother, hconflict⟩ := List.exists_of_findSome?_eq_some h
  obtain ⟨found, hrow, hdisagree⟩ := Option.bind_eq_some_iff.mp hconflict
  split at hdisagree
  · exact nomatch hdisagree
  · next hdiffers =>
    rw [agree_iff, not_not] at hdiffers
    obtain ⟨cheaper, _, hfirst, -⟩ := isFirst_of_row? hc.balanced hrow
    exact ⟨other, hother, found, hrow, hdiffers, cheaper, hfirst.plan,
      hcheap cheaper (hc.survivors.subset (List.mem_of_getElem? hfirst.plan))⟩

theorem accounts_drop (hc : c.Accounts tolerance q taken) (h : c.Rejects tolerance p) :
    Accounts tolerance q (taken ++ [p]) { c with pruned := c.pruned + 1 } := by
  refine ⟨hc.query, hc.balanced, hc.survivors.trans (List.sublist_append_left _ _), ?_,
    hc.agreed, ?_⟩
  -- where a plan is dropped, one has been kept
  · obtain ⟨_, _, _, _, _, cheaper, hcheaper, -⟩ := h
    have hsome : c.plans.head?.isSome = true :=
      List.isSome_head?.mpr (List.ne_nil_of_mem (List.mem_of_getElem? hcheaper))
    show c.plans.head? = (taken ++ [p]).head?
    rw [List.head?_append, ← hc.cheapest, Option.or_of_isSome hsome]
  · obtain ⟨removed, hsub, hperm, hlength, hrejects⟩ := hc.removed
    refine ⟨removed ++ [p], hsub.append (.refl _), ?_, ?_, fun x hx => ?_⟩
    · rw [← List.append_assoc]
      exact hperm.append_right [p]
    · rw [List.length_append, hlength]
      rfl
    · rcases List.mem_append.mp hx with hx | hx
      · exact hrejects x hx
      · rw [List.mem_singleton.mp hx]
        exact h

/-! ## All plans -/

/-- **ONE PLAN MORE**: what holds of the plans taken so far holds with the next one. -/
theorem accounts_absorb (htolerance : 0 ≤ tolerance) (hc : c.Accounts tolerance q taken)
    (hnodup : (p.runs.map (·.index.key)).Nodup) (hcheap : ∀ x ∈ taken, x.cost ≤ p.cost)
    (h : c.absorb tolerance p = .ok next) : next.Accounts tolerance q (taken ++ [p]) := by
  rcases of_absorb h with ⟨hnone, rfl⟩ | ⟨row, run, hconflict, rfl⟩
  · exact accounts_add htolerance hc hnodup hnone
  · exact accounts_drop hc (rejects_of_conflict? hc hcheap hconflict)

theorem accounts_foldlM (htolerance : 0 ≤ tolerance) (plans : List (Plan Rat)) :
    ∀ (c : CostLedger Rat) (taken : List (Plan Rat)), c.Accounts tolerance q taken →
      (taken ++ plans).Pairwise (fun p p' => p.cost ≤ p'.cost) →
        (∀ p ∈ plans, (p.runs.map (·.index.key)).Nodup) →
          ∀ last, plans.foldlM (absorb tolerance) c = .ok last →
            last.Accounts tolerance q (taken ++ plans) := by
  induction plans with
  | nil =>
      intro c taken hc _ _ last h
      rw [← Except.ok.inj h, List.append_nil]
      exact hc
  | cons p plans ih =>
      intro c taken hc hsorted hnodup last h
      rw [List.foldlM_cons] at h
      obtain ⟨next, hnext, hrest⟩ := exists_of_bind_eq_ok h
      have hcheap : ∀ x ∈ taken, x.cost ≤ p.cost := fun x hx =>
        (List.pairwise_append.mp hsorted).2.2 x hx p List.mem_cons_self
      have hstep := accounts_absorb htolerance hc (hnodup p List.mem_cons_self) hcheap hnext
      rw [List.append_cons] at hsorted ⊢
      exact ih next _ hstep hsorted (fun x hx => hnodup x (List.mem_cons_of_mem _ hx)) last hrest

/-! ## Plans sorted by cost -/

/-- The list is sorted by cost, and plans of one cost stand as they did. -/
structure IsSortedByCost (plans sorted : List (Plan Rat)) : Prop where
  perm : sorted.Perm plans
  increasing : sorted.Pairwise fun p p' => p.cost ≤ p'.cost
  stable : ∀ cost, (sorted.filter fun p => decide (p.cost = cost))
    = plans.filter fun p => decide (p.cost = cost)

theorem isSortedByCost_mergeSort (plans : List (Plan Rat)) :
    IsSortedByCost plans (plans.mergeSort fun p p' => Scalar.totalLE p.cost p'.cost) := by
  have htrans : ∀ a b c : Plan Rat, Scalar.totalLE a.cost b.cost = true →
      Scalar.totalLE b.cost c.cost = true → Scalar.totalLE a.cost c.cost = true := by
    intro a b c hab hbc
    rw [Scalar.totalLE_rat] at hab hbc ⊢
    exact le_trans hab hbc
  have htotal : ∀ a b : Plan Rat,
      (Scalar.totalLE a.cost b.cost || Scalar.totalLE b.cost a.cost) = true := by
    intro a b
    rw [Bool.or_eq_true, Scalar.totalLE_rat, Scalar.totalLE_rat]
    exact le_total _ _
  refine ⟨List.mergeSort_perm _ _, ?_, fun cost => ?_⟩
  · exact (List.pairwise_mergeSort htrans htotal plans).imp Scalar.totalLE_rat.mp
  -- the plans of one cost are sorted as they stand, so the sort keeps their order
  · have hequal : (plans.filter fun p => decide (p.cost = cost)).Pairwise
        fun p p' => Scalar.totalLE p.cost p'.cost = true := by
      refine List.pairwise_of_forall_mem_list fun p hp p' hp' =>
        Scalar.totalLE_rat.mpr ?_
      rw [of_decide_eq_true (List.mem_filter.mp hp).2, of_decide_eq_true (List.mem_filter.mp hp').2]
    have hsub := (List.sublist_mergeSort htrans htotal hequal List.filter_sublist).filter
      fun p => decide (p.cost = cost)
    rw [List.filter_filter] at hsub
    simp only [Bool.and_self] at hsub
    exact (hsub.eq_of_length ((List.mergeSort_perm plans _).filter _).length_eq.symm).symm

/-! ## Costs with their table -/

/-- The costs have a table that their plans agree with, the cheapest of the sorted plans among
    them, and the plans that were dropped disagree with it. -/
structure IsConsistentOver (tolerance : Rat) (sorted : List (Plan Rat)) (c : CostLedger Rat) :
    Prop where
  survivors : c.plans.Sublist sorted
  counted : c.pruned + c.plans.length = sorted.length
  cheapest : c.plans.head? = sorted.head?
  /-- There is a row for each index that a plan looks up. -/
  keys : ∀ k, (∃ row ∈ c.table.toList, row.index.key = k)
    ↔ ∃ p ∈ c.plans, ∃ run ∈ p.runs, run.index.key = k
  /-- It has the weighted cost of the run of the first plan that looks the index up. -/
  rows : ∀ row ∈ c.table.toList, ∃ p run, IsFirst c.plans row.index.key row.plan p run
    ∧ row.index = run.index ∧ row.cost = run.cost * c.query.weight
  agreed : ∀ row ∈ c.table.toList, ∀ p ∈ c.plans, ∀ run ∈ p.runs,
    run.index.key = row.index.key →
      |row.cost - run.cost * c.query.weight| ≤ tolerance * max |row.cost| 1
  /-- Two plans give costs of an index that lie at most twice as far apart. -/
  close : ∀ row ∈ c.table.toList, ∀ p ∈ c.plans, ∀ run ∈ p.runs, ∀ p' ∈ c.plans,
    ∀ run' ∈ p'.runs, run.index.key = row.index.key → run'.index.key = row.index.key →
      |run.cost * c.query.weight - run'.cost * c.query.weight|
        ≤ 2 * (tolerance * max |row.cost| 1)
  /-- The other plans each have a run that differs from the row of its index, and a plan that is
      no dearer gave the row. -/
  removed : ∃ removed : List (Plan Rat), removed.Sublist sorted ∧ (c.plans ++ removed).Perm sorted
    ∧ ∀ p ∈ removed, ∃ run ∈ p.runs, ∃ row ∈ c.table.toList, row.index.key = run.index.key
      ∧ tolerance * max |row.cost| 1 < |row.cost - run.cost * c.query.weight|
      ∧ ∃ cheaper, c.plans[row.plan]? = some cheaper ∧ cheaper.cost ≤ p.cost

theorem row?_eq_some_iff {index : Index} {row : CostRow Rat} :
    c.row? index = some row ↔ row ∈ c.table.toList ∧ row.index.key = index.key := by
  constructor
  · intro h
    obtain ⟨hmem, hkey⟩ := SortedSet.of_find? h
    exact ⟨hmem, (List.cons.inj hkey).1⟩
  · rintro ⟨hmem, hkey⟩
    rw [row?, ← hkey]
    exact SortedSet.find?_key hmem

theorem isConsistentOver_of_accounts (hc : c.Accounts tolerance q taken) :
    c.IsConsistentOver tolerance taken := by
  have hrows : ∀ row ∈ c.table.toList, ∃ p run, IsFirst c.plans row.index.key row.plan p run
      ∧ row = ⟨run.index, run.cost * c.query.weight, row.plan⟩ := fun row hrow =>
    isFirst_of_row? hc.balanced (row?_eq_some_iff.mpr ⟨hrow, rfl⟩)
  have hagreed : ∀ row ∈ c.table.toList, ∀ p ∈ c.plans, ∀ run ∈ p.runs,
      run.index.key = row.index.key →
        |row.cost - run.cost * c.query.weight| ≤ tolerance * max |row.cost| 1 := by
    intro row hrow p hp run hrun hkey
    obtain ⟨found, hfound, hclose⟩ := hc.agreed p hp run hrun
    rw [row?_eq_some_iff.mpr ⟨hrow, hkey.symm⟩] at hfound
    rw [Option.some.inj hfound]
    exact not_lt.mp hclose
  obtain ⟨removed, hsub, hperm, hlength, hrejects⟩ := hc.removed
  refine ⟨hc.survivors, ?_, hc.cheapest, fun k => ⟨?_, ?_⟩, fun row hrow => ?_, hagreed, ?_,
    removed, hsub, hperm, fun p hp => ?_⟩
  · rw [← hperm.length_eq, List.length_append, hlength, Nat.add_comm]
  · rintro ⟨row, hrow, rfl⟩
    obtain ⟨p, run, hfirst, -⟩ := hrows row hrow
    have hkey := List.find?_some hfirst.run
    exact ⟨p, List.mem_of_getElem? hfirst.plan, run, List.mem_of_find?_eq_some hfirst.run,
      eq_of_beq hkey⟩
  · rintro ⟨p, hp, run, hrun, rfl⟩
    obtain ⟨row, hrow, -⟩ := hc.agreed p hp run hrun
    exact ⟨row, row?_eq_some_iff.mp hrow⟩
  · obtain ⟨p, run, hfirst, hrow⟩ := hrows row hrow
    exact ⟨p, run, hfirst, congrArg CostRow.index hrow, congrArg CostRow.cost hrow⟩
  · intro row hrow p hp run hrun p' hp' run' hrun' hkey hkey'
    have hnear := hagreed row hrow p hp run hrun hkey
    have hnear' := hagreed row hrow p' hp' run' hrun' hkey'
    rw [abs_sub_comm] at hnear
    calc |run.cost * c.query.weight - run'.cost * c.query.weight|
        ≤ |run.cost * c.query.weight - row.cost| + |row.cost - run'.cost * c.query.weight| :=
          abs_sub_le _ _ _
      _ ≤ tolerance * max |row.cost| 1 + tolerance * max |row.cost| 1 := add_le_add hnear hnear'
      _ = 2 * (tolerance * max |row.cost| 1) := (two_mul _).symm
  · obtain ⟨run, hrun, row, hrow, hdiffers, hcheaper⟩ := hrejects p hp
    obtain ⟨hmem, hkey⟩ := row?_eq_some_iff.mp hrow
    exact ⟨run, hrun, row, hmem, hkey, hdiffers, hcheaper⟩

/-- A plan that looks no index up twice has runs for different keys. -/
theorem nodup_keys_runs {indexes : List Index} (hkeys : Index.KeysDistinct indexes)
    (hp : ∀ i ∈ p.lookedUp, i ∈ indexes) (honce : (p.lookedUp.map (·.descriptor)).Nodup) :
    (p.runs.map (·.index.key)).Nodup := by
  have hlooked : (p.lookedUp.map (·.key)).Nodup := by
    refine List.pairwise_map.mpr ((List.pairwise_map.mp honce).imp_of_mem ?_)
    intro i j hi hj hne hkey
    exact hne (hkeys i (hp i hi) j (hp j hj) hkey)
  rwa [Plan.lookedUp, List.map_map] at hlooked

/-- Plans that are sorted by cost are taken as they stand. -/
theorem ofPlans_eq_foldlM {plans : List (Plan Rat)}
    (h : plans.Pairwise fun p p' => p.cost ≤ p'.cost) :
    ofPlans tolerance q plans = plans.foldlM (absorb tolerance) ⟨q, [], ∅, 0⟩ := by
  rw [ofPlans, List.mergeSort_of_pairwise (h.imp Scalar.totalLE_rat.mpr)]

/-- **COSTS KEEP A CONSISTENT TABLE**: for plans of one query that look no index up twice, the
    costs that are returned are consistent with the plans in the order of their costs.  They are
    those that any tree of these plans gives without a table, with the same rows, and a test
    that all plans pass leaves them as they are. -/
theorem ofPlans_isConsistentOver {plans : List (Plan Rat)} (hq : ∀ p ∈ plans, p.query = q)
    (hkeys : Index.KeysDistinct (plans.flatMap (·.lookedUp)))
    (honce : ∀ p ∈ plans, (p.lookedUp.map (·.descriptor)).Nodup) (htolerance : 0 ≤ tolerance)
    (h : ofPlans tolerance q plans = .ok c) :
    c.query = q
      ∧ (∃ sorted, IsSortedByCost plans sorted ∧ c.IsConsistentOver tolerance sorted)
      ∧ (∀ tree : PlanTree Rat, tree.query = q → tree.plans = plans →
          StatementCosts.ofTree tolerance tree = .ok c.costs)
      ∧ List.Forall₂ (IsRowOf c.plans) c.table.toList c.costs.table.toList
      ∧ ∀ keep : Plan Rat → Bool, (∀ p ∈ c.plans, keep p = true) → c.retain keep = c := by
  have hsorted := isSortedByCost_mergeSort plans
  have hmem : ∀ p ∈ plans.mergeSort fun p p' => Scalar.totalLE p.cost p'.cost, p ∈ plans :=
    fun p hp => hsorted.perm.mem_iff.mp hp
  have hnodup : ∀ p ∈ plans, (p.runs.map (·.index.key)).Nodup := fun p hp =>
    nodup_keys_runs hkeys (fun i hi => List.mem_flatMap.mpr ⟨p, hp, hi⟩) (honce p hp)
  have haccounts := accounts_foldlM htolerance _ _ [] accounts_start hsorted.increasing
    (fun p hp => hnodup p (hmem p hp)) c h
  rw [List.nil_append] at haccounts
  refine ⟨haccounts.query, ⟨_, hsorted, isConsistentOver_of_accounts haccounts⟩, ?_,
    forall₂_table haccounts.balanced fun p hp => ?_, fun keep hkeep =>
      retain_eq_self haccounts.balanced hkeep⟩
  · rintro tree rfl rfl
    rw [← ofPlans_costs tolerance hq, h]
    rfl
  · rw [haccounts.query]
    exact hq p (hmem p (haccounts.survivors.subset hp))

/-! ## The topics of the users of a name

    The users of a name in a city are found by an index that is sorted by name,
    or by another with a filter.  Where the filter comes after the messages have
    been looked up, these cost ten times as much, and the plan is dropped. -/

open Planner (ofIndexes userCity userName userId userEntity cityIndex messagesIndex
  cityTopicsQuery)

/-- Users by their city, in the order of their names. -/
def namesInCityIndex : Index where
  partition := SortedSet.ofList [userCity]
  ordered := [userName, userId]
  extra := ∅
  aggregates := ∅
  groupBy := ∅
  graph := JoinGraph.single userEntity

def namedTopicsQuery : Query Rat :=
  { cityTopicsQuery with eq := SortedSet.ofList [userCity, userName] }

/-- Two of three plans are kept, with three rows. -/
theorem ofPlans_isConsistentOver_namedTopics :
    ∃ (tree : PlanTree Rat) (c : CostLedger Rat),
      (ofIndexes [namesInCityIndex, cityIndex, messagesIndex] .requestCount {}).plan
          namedTopicsQuery = .ok tree
        ∧ (∀ p ∈ tree.plans, p.query = namedTopicsQuery)
        ∧ Index.KeysDistinct (tree.plans.flatMap (·.lookedUp))
        ∧ (∀ p ∈ tree.plans, (p.lookedUp.map (·.descriptor)).Nodup) ∧ (0 : Rat) ≤ 1 / 1000
        ∧ ofPlans (1 / 1000) namedTopicsQuery tree.plans = .ok c
        ∧ c.plans.length = 2 ∧ c.pruned = 1 ∧ c.table.size = 3
        ∧ ∃ sorted, IsSortedByCost tree.plans sorted ∧ c.IsConsistentOver (1 / 1000) sorted := by
  have hpool : Index.KeysDistinct [namesInCityIndex, cityIndex, messagesIndex] := by
    rw [Index.KeysDistinct]
    decide +kernel
  have hplanned : ((ofIndexes [namesInCityIndex, cityIndex, messagesIndex]
      (.requestCount : CostModel Rat) {}).plan namedTopicsQuery).toOption.any (fun tree =>
        tree.plans.all (fun p => decide (p.lookedUp.map (·.descriptor)).Nodup)
          && decide (tree.plans.Pairwise fun p p' => p.cost ≤ p'.cost)
          && (tree.plans.foldlM (absorb (1 / 1000)) ⟨namedTopicsQuery, [], ∅, 0⟩).toOption.any
            fun c => c.plans.length == 2 && c.pruned == 1 && c.table.size == 3) = true := by
    decide +kernel
  obtain ⟨tree, htree, hchecked⟩ := Option.any_eq_true _ _ |>.mp hplanned
  rw [Bool.and_eq_true, Bool.and_eq_true, List.all_eq_true] at hchecked
  obtain ⟨⟨hchecked, hsorted⟩, hcosted⟩ := hchecked
  obtain ⟨c, hc, hsizes⟩ := Option.any_eq_true _ _ |>.mp hcosted
  simp only [Bool.and_eq_true, beq_iff_eq] at hsizes
  obtain ⟨⟨hkept, hpruned⟩, hsize⟩ := hsizes
  have hok := Planner.toOption_eq_some_iff.mp htree
  have hcosts := Planner.toOption_eq_some_iff.mp hc
  rw [← ofPlans_eq_foldlM (of_decide_eq_true hsorted)] at hcosts
  have hquery : ∀ p ∈ tree.plans, p.query = namedTopicsQuery := fun p hp =>
    Planner.IsPlanOf.query_eq ⟨tree, hok, hp⟩
  have hkeys : Index.KeysDistinct (tree.plans.flatMap (·.lookedUp)) := by
    have hfrom : ∀ i ∈ tree.plans.flatMap (·.lookedUp),
        i ∈ [namesInCityIndex, cityIndex, messagesIndex] := by
      intro i hi
      obtain ⟨p, hp, hi⟩ := List.mem_flatMap.mp hi
      exact Index.mem_of_mem_pool (Planner.IsPlanOf.mem_pool ⟨tree, hok, hp⟩ hi)
    exact fun i hi j hj => hpool i (hfrom i hi) j (hfrom j hj)
  have honce : ∀ p ∈ tree.plans, (p.lookedUp.map (·.descriptor)).Nodup := fun p hp =>
    of_decide_eq_true (hchecked p hp)
  have htolerance : (0 : Rat) ≤ 1 / 1000 := by norm_num
  exact ⟨tree, c, hok, hquery, hkeys, honce, htolerance, hcosts, hkept, hpruned, hsize,
    (ofPlans_isConsistentOver hquery hkeys honce htolerance hcosts).2.1⟩

end IndexDesign.CostLedger
