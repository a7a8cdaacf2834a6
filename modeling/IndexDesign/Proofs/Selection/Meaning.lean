import IndexDesign.Proofs.Selection.Choices

/-! # Meaning — what the zero-one program of a selection problem says

    Values solve the program exactly when they take one plan for each query,
    take one plan for each support query of a chosen index and none for those
    of the others, choose every candidate that a taken plan looks up, and fit
    the budget.  All constraints are over integers, so the slack of the
    program makes no difference.

    The objective of values is the cost of the plans that they take together
    with the maintenance of the indexes that they choose, added up entry by
    entry although the program charges it index by index. -/

namespace IndexDesign

open ZeroOne

/-! ## Sizes of indexes are counts -/

namespace Index

theorem isInteger_combinations (fields : List Field) : IsInteger (combinations fields) := by
  refine IsInteger.product _ Scalar.one (IsInteger.ofCount 1) ?_
  intro x hx
  obtain ⟨f, -, rfl⟩ := List.mem_map.mp hx
  exact IsInteger.ofCount _

theorem rows_spec (es : List Entity) :
    ∀ rows : Rat, IsInteger rows ∧ 1 ≤ rows →
      IsInteger (es.foldl (fun rows e => Scalar.max rows (Scalar.ofCount e.count)) rows)
        ∧ 1 ≤ es.foldl (fun rows e => Scalar.max rows (Scalar.ofCount e.count)) rows := by
  induction es with
  | nil => intro rows h; exact h
  | cons e es ih =>
      intro rows h
      have hle : (1 : Rat) ≤ Scalar.max rows (Scalar.ofCount e.count) := by
        rw [Scalar.max_rat]
        exact le_trans h.2 (le_max_left _ _)
      exact ih _ ⟨IsInteger.max h.1 (IsInteger.ofCount _), hle⟩

/-- The number of rows is an integer, and at least one. -/
theorem entries_spec (i : Index) : IsInteger (i.entries : Rat) ∧ (1 : Rat) ≤ i.entries := by
  have hone : IsInteger (Scalar.one : Rat) ∧ (1 : Rat) ≤ Scalar.one := by
    rw [Scalar.one_rat]
    exact ⟨IsInteger.one, le_refl 1⟩
  obtain ⟨hrows, hle⟩ := rows_spec i.graph.entities.toList Scalar.one hone
  unfold entries
  dsimp only
  split
  · refine ⟨IsInteger.min hrows (IsInteger.max (isInteger_combinations _) hone.1), ?_⟩
    rw [Scalar.min_rat, Scalar.max_rat]
    exact le_min hle (le_trans hone.2 (le_max_right _ _))
  · exact ⟨hrows, hle⟩

theorem isInteger_size (i : Index) : IsInteger (i.size : Rat) :=
  i.entries_spec.1.mul (IsInteger.ofCount _)

theorem size_nonneg (i : Index) : (0 : Rat) ≤ i.size := by
  have hcount : (0 : Rat) ≤ Scalar.ofCount i.entrySize := Nat.cast_nonneg i.entrySize
  exact mul_nonneg (le_trans zero_le_one i.entries_spec.2) hcount

end Index

namespace SelectionProblem

variable {problem : SelectionProblem Rat} {values : Array Bool} {c : Choice Rat}

/-! ## One constraint at a time -/

/-- The candidates that a plan looks up are chosen. -/
def IsOverChosen (indexes : List Index) (value : Nat → Bool) (p : Plan Rat) : Prop :=
  ∀ index ∈ p.lookedUp, ∀ v,
    variableOf? (indexes.map (·.key)) index.key = some v → value v = true

/-- Every plan that values take is over chosen candidates. -/
def UsesChosen (indexes : List Index) (value : Nat → Bool) (c : Choice Rat) : Prop :=
  ∀ i p, c.plans[i]? = some p → value (c.first + i) = true → IsOverChosen indexes value p

variable {indexes : List Index} {value : Nat → Bool} {p : Plan Rat}

theorem usesChosen_of_takes_none (h : c.Takes value none) : UsesChosen indexes value c := by
  intro i p hp htrue
  have hfalse := h i (List.getElem?_eq_some_iff.mp hp).1
  rw [htrue] at hfalse
  exact nomatch hfalse

theorem usesChosen_of_takes (h : c.Takes value (some p)) (hp : IsOverChosen indexes value p) :
    UsesChosen indexes value c := by
  intro i q hq htrue
  rw [Choice.eq_of_takes h hq htrue]
  exact hp

theorem UsesChosen.of_takes (huses : UsesChosen indexes value c) (h : c.Takes value (some p)) :
    IsOverChosen indexes value p := by
  obtain ⟨j, honly, hp⟩ := h
  exact huses j p hp ((honly.2 j honly.1).mpr rfl)

theorem sum_planTerms (c : Choice Rat) (values : Array Bool) :
    ((planTerms c).map (termShare values)).sum = c.count (values.getD · false) := by
  unfold planTerms Choice.numbered Choice.count countTrue sumTrue
  rw [List.map_map]
  rfl

/-- The constraint that a plan has a candidate chosen is an implication. -/
theorem holds_uses_iff (name : String) (v w : Nat) (values : Array Bool) :
    (Constraint.mk name [(v, Scalar.one), (w, Scalar.zero - Scalar.one)] .atMost
        Scalar.zero : Constraint Rat).Holds values
      ↔ (values.getD v false = true → values.getD w false = true) := by
  show Constraint.activity _ values ≤ (Scalar.zero : Rat) ↔ _
  rw [Constraint.activity_eq, Scalar.zero_rat, Scalar.one_rat]
  show ((if values.getD v false then (1 : Rat) else 0)
    + ((if values.getD w false then (0 : Rat) - 1 else 0) + 0)) ≤ 0 ↔ _
  cases values.getD v false <;> cases values.getD w false <;> norm_num

theorem usesRows_holds_iff :
    (∀ row ∈ problem.usesRows c, row.Holds values)
      ↔ UsesChosen problem.indexes (values.getD · false) c := by
  constructor
  · intro h i p hp htaken index hindex v hv
    -- there is one row for each key that the plan looks up
    have hkey : index.key ∈ (SortedSet.ofList (p.lookedUp.map (·.key))).toList := by
      obtain ⟨k, hk, heq⟩ := SortedSet.mem_iff.mp
        (SortedSet.mem_ofList.mpr ⟨index.key, List.mem_map_of_mem hindex, rfl⟩)
      rwa [← List.singleton_inj.mp heq]
    have hrow : ⟨s!"{c.label}_p{i}_uses_{index.key}",
        [(c.first + i, Scalar.one), (v, Scalar.zero - Scalar.one)], .atMost, Scalar.zero⟩
          ∈ problem.usesRows c :=
      List.mem_flatMap.mpr ⟨(p, i), List.mk_mem_zipIdx_iff_getElem?.mpr hp,
        List.mem_filterMap.mpr ⟨index.key, hkey, Option.map_eq_some_iff.mpr ⟨v, hv, rfl⟩⟩⟩
    exact (holds_uses_iff _ (c.first + i) v values).mp (h _ hrow) htaken
  · intro h row hrow
    obtain ⟨⟨p, i⟩, hp, hrow⟩ := List.mem_flatMap.mp hrow
    obtain ⟨key, hkey, hrow⟩ := List.mem_filterMap.mp hrow
    obtain ⟨v, hv, rfl⟩ := Option.map_eq_some_iff.mp hrow
    refine (holds_uses_iff _ (c.first + i) v values).mpr ?_
    intro htaken
    obtain ⟨k, hk, heq⟩ := SortedSet.mem_ofList.mp (SortedSet.mem_of_mem_toList hkey)
    obtain ⟨index, hindex, rfl⟩ := List.mem_map.mp hk
    rw [← List.singleton_inj.mp heq] at hv
    exact h i p (List.mk_mem_zipIdx_iff_getElem?.mp hp) htaken index hindex v hv

theorem holds_one_plan_iff (name : String) :
    (Constraint.mk name (planTerms c) .exactly Scalar.one : Constraint Rat).Holds values
      ↔ c.count (values.getD · false) = 1 := by
  show Constraint.activity _ values = (Scalar.one : Rat) ↔ _
  rw [Constraint.activity_eq, sum_planTerms, Scalar.one_rat]

theorem holds_iff_index_iff (name : String) (index : Nat) :
    (Constraint.mk name (planTerms c ++ [(index, Scalar.zero - Scalar.one)]) .exactly
        Scalar.zero : Constraint Rat).Holds values
      ↔ c.count (values.getD · false) = if values.getD index false then 1 else 0 := by
  show Constraint.activity _ values = (Scalar.zero : Rat) ↔ _
  rw [Constraint.activity_eq, List.map_append, List.sum_append, sum_planTerms, Scalar.zero_rat,
    Scalar.one_rat]
  show c.count (values.getD · false)
    + ((if values.getD index false then (0 : Rat) - 1 else 0) + 0) = 0 ↔ _
  cases values.getD index false with
  | true =>
      rw [if_pos rfl, if_pos rfl]
      constructor
      · intro h
        linarith
      · intro h
        linarith
  | false =>
      rw [if_neg Bool.false_ne_true, if_neg Bool.false_ne_true, add_zero, add_zero]

theorem holds_unsupported_iff (name : String) (index : Nat) :
    (Constraint.mk name [(index, Scalar.one)] .atMost Scalar.zero : Constraint Rat).Holds values
      ↔ values.getD index false = false := by
  show Constraint.activity _ values ≤ (Scalar.zero : Rat) ↔ _
  rw [Constraint.activity_eq, Scalar.zero_rat, Scalar.one_rat]
  show ((if values.getD index false then (1 : Rat) else 0) + 0) ≤ 0 ↔ _
  cases values.getD index false <;> norm_num

/-- What the sizes add up to are those of the candidates that are chosen. -/
theorem sum_sizeTerms (candidates : List Index) (values : Array Bool) :
    ((sizeTerms candidates).map (termShare values)).sum
      = ((chosenBy candidates (values.getD · false)).map Index.size).sum := by
  simp only [sizeTerms, chosenBy]
  -- the variables of all keys are fixed; the induction is on the candidates that are left
  generalize variableOf? (candidates.map (·.key)) = variableOf
  induction candidates with
  | nil => rfl
  | cons i candidates ih =>
      rw [List.filterMap_cons, List.filter_cons]
      cases variableOf i.key with
      | none => exact ih
      | some v =>
          rw [Option.map_some, List.map_cons, List.sum_cons, ih, Option.any_some]
          show (if values.getD v false then i.size else 0) + _ = _
          split
          · rw [List.map_cons, List.sum_cons]
          · exact zero_add _

theorem holds_budget_iff (name : String) (budget : Rat) :
    (Constraint.mk name (sizeTerms problem.indexes) .atMost budget).Holds values
      ↔ ((chosenBy problem.indexes (values.getD · false)).map Index.size).sum ≤ budget := by
  show Constraint.activity _ values ≤ budget ↔ _
  rw [Constraint.activity_eq, sum_sizeTerms]

theorem isInteger_sizeTerms (candidates : List Index) :
    ∀ t ∈ (sizeTerms candidates : List (Nat × Rat)), IsInteger t.2 := by
  intro t ht
  obtain ⟨i, -, hi⟩ := List.mem_filterMap.mp ht
  obtain ⟨v, -, rfl⟩ := Option.map_eq_some_iff.mp hi
  exact i.isInteger_size

/-! ## All constraints at once -/

/-- What a constraint of the problem can be. -/
inductive IsRow (problem : SelectionProblem Rat) : Constraint Rat → Prop
  | uses {name : String} {plan index : Nat} : IsRow problem
      ⟨name, [(plan, Scalar.one), (index, Scalar.zero - Scalar.one)], .atMost, Scalar.zero⟩
  | onePlan {name : String} {c : Choice Rat} : c ∈ problem.queries →
      IsRow problem ⟨name, planTerms c, .exactly, Scalar.one⟩
  | iffIndex {name : String} {c : Choice Rat} {index : Nat} : IsRow problem
      ⟨name, planTerms c ++ [(index, Scalar.zero - Scalar.one)], .exactly, Scalar.zero⟩
  | unsupported {name : String} {index : Nat} :
      IsRow problem ⟨name, [(index, Scalar.one)], .atMost, Scalar.zero⟩
  | budget {name : String} {b : Rat} : problem.budget = some b →
      IsRow problem ⟨name, sizeTerms problem.indexes, .atMost, b⟩

theorem isRow_of_mem_usesRows {row : Constraint Rat} (h : row ∈ problem.usesRows c) :
    problem.IsRow row := by
  obtain ⟨⟨p, i⟩, -, hrow⟩ := List.mem_flatMap.mp h
  obtain ⟨key, -, hrow⟩ := List.mem_filterMap.mp hrow
  obtain ⟨v, -, rfl⟩ := Option.map_eq_some_iff.mp hrow
  exact .uses

/-- **THE CONSTRAINTS BY KIND**: those of queries, those of maintained indexes and the budget. -/
theorem isRow_of_mem {row : Constraint Rat} (h : row ∈ problem.queries.flatMap problem.queryRows
      ++ problem.upkeep.flatMap problem.upkeepRows ++ problem.budgetRows) : problem.IsRow row := by
  rcases List.mem_append.mp h with h | h
  · rcases List.mem_append.mp h with h | h
    · obtain ⟨c, hc, h⟩ := List.mem_flatMap.mp h
      rcases List.mem_append.mp h with h | h
      · exact isRow_of_mem_usesRows h
      · rw [List.mem_singleton.mp h]
        exact .onePlan hc
    · obtain ⟨u, -, h⟩ := List.mem_flatMap.mp h
      unfold upkeepRows at h
      split at h
      · obtain ⟨c, -, h⟩ := List.mem_flatMap.mp h
        rcases List.mem_append.mp h with h | h
        · exact isRow_of_mem_usesRows h
        · rw [List.mem_singleton.mp h]
          exact .iffIndex
      · rw [List.mem_singleton.mp h]
        exact .unsupported
  · obtain ⟨b, hb, rfl⟩ := List.mem_map.mp h
    exact .budget (Option.mem_toList.mp hb)

/-- Every constraint of the problem is over integers. -/
theorem isIntegral_rows (hbudget : ∀ budget, problem.budget = some budget → IsInteger budget) :
    ∀ row ∈ problem.queries.flatMap problem.queryRows
      ++ problem.upkeep.flatMap problem.upkeepRows ++ problem.budgetRows, row.IsIntegral := by
  have hzero : IsInteger (Scalar.zero : Rat) := IsInteger.ofCount 0
  have hone : IsInteger (Scalar.one : Rat) := IsInteger.ofCount 1
  have hplans : ∀ c, ∀ t ∈ (planTerms c : List (Nat × Rat)), IsInteger t.2 := by
    intro c t ht
    obtain ⟨s, -, rfl⟩ := List.mem_map.mp ht
    exact hone
  intro row hrow
  cases isRow_of_mem hrow with
  | uses =>
      refine ⟨fun t ht => ?_, hzero⟩
      rcases List.mem_cons.mp ht with rfl | ht
      · exact hone
      · rw [List.mem_singleton.mp ht]
        exact hzero.sub hone
  | onePlan => exact ⟨hplans _, hone⟩
  | iffIndex =>
      refine ⟨fun t ht => ?_, hzero⟩
      rcases List.mem_append.mp ht with ht | ht
      · exact hplans _ t ht
      · rw [List.mem_singleton.mp ht]
        exact hzero.sub hone
  | unsupported =>
      refine ⟨fun t ht => ?_, hzero⟩
      rw [List.mem_singleton.mp ht]
      exact hone
  | budget hb => exact ⟨isInteger_sizeTerms _, hbudget _ hb⟩

/-- Values give a maintained index its support plans exactly if they choose it. -/
structure Maintains (indexes : List Index) (value : Nat → Bool) (u : Upkeep Rat) : Prop where
  support : ∀ choices, u.support = some choices → ∀ c ∈ choices,
    c.count value = (if value u.index then 1 else 0) ∧ UsesChosen indexes value c
  unsupported : u.support = none → value u.index = false

/-- What values have to say about plans and indexes to solve the problem. -/
structure Solves (problem : SelectionProblem Rat) (value : Nat → Bool) : Prop where
  query : ∀ c ∈ problem.queries, c.count value = 1 ∧ UsesChosen problem.indexes value c
  upkeep : ∀ u ∈ problem.upkeep, Maintains problem.indexes value u
  fits : ∀ budget, problem.budget = some budget →
    ((chosenBy problem.indexes value).map Index.size).sum ≤ budget

theorem queryRows_hold_iff :
    (∀ row ∈ problem.queryRows c, row.Holds values)
      ↔ c.count (values.getD · false) = 1 ∧ UsesChosen problem.indexes (values.getD · false) c := by
  unfold queryRows
  rw [List.forall_mem_append, usesRows_holds_iff, List.forall_mem_singleton, holds_one_plan_iff,
    and_comm]

theorem supportRows_hold_iff (index : Nat) :
    (∀ row ∈ problem.supportRows index c, row.Holds values)
      ↔ c.count (values.getD · false) = (if values.getD index false then 1 else 0)
        ∧ UsesChosen problem.indexes (values.getD · false) c := by
  unfold supportRows
  rw [List.forall_mem_append, usesRows_holds_iff, List.forall_mem_singleton,
    holds_iff_index_iff, and_comm]

/-- **THE CONSTRAINTS MEAN THE PROBLEM**: values are feasible exactly when they solve it. -/
theorem isFeasible_iff_solves
    (hbudget : ∀ budget, problem.budget = some budget → IsInteger budget) :
    problem.program.isFeasible values = true
      ↔ values.size = problem.vars.length ∧ problem.Solves (values.getD · false) := by
  unfold program
  rw [Program.isFeasible_ofParts_iff (isIntegral_rows hbudget), List.forall_mem_append,
    List.forall_mem_append, List.forall_mem_flatMap, List.forall_mem_flatMap]
  refine and_congr_right fun _ => ?_
  constructor
  · rintro ⟨⟨hqueries, hupkeep⟩, hfits⟩
    refine ⟨fun c hc => queryRows_hold_iff.mp (hqueries c hc), ?_, ?_⟩
    · intro u hu
      have hrows := hupkeep u hu
      unfold upkeepRows at hrows
      constructor
      · intro choices hchoices c hc
        rw [hchoices] at hrows
        exact (supportRows_hold_iff u.index).mp fun row hrow =>
          hrows row (List.mem_flatMap.mpr ⟨c, hc, hrow⟩)
      · intro hnone
        rw [hnone] at hrows
        exact (holds_unsupported_iff _ _).mp (hrows _ (List.mem_singleton.mpr rfl))
    · intro budget hb
      refine (holds_budget_iff "space_budget" budget).mp (hfits _ ?_)
      exact List.mem_map.mpr ⟨budget, Option.mem_toList.mpr hb, rfl⟩
  · intro h
    refine ⟨⟨fun c hc => queryRows_hold_iff.mpr (h.query c hc), ?_⟩, ?_⟩
    · intro u hu row hrow
      unfold upkeepRows at hrow
      split at hrow
      · next choices hchoices =>
        obtain ⟨c, hc, hrow⟩ := List.mem_flatMap.mp hrow
        exact (supportRows_hold_iff u.index).mpr ((h.upkeep u hu).support choices hchoices c hc)
          row hrow
      · next hnone =>
        rw [List.mem_singleton.mp hrow]
        exact (holds_unsupported_iff _ _).mpr ((h.upkeep u hu).unsupported hnone)
    · intro row hrow
      obtain ⟨budget, hmem, rfl⟩ := List.mem_map.mp hrow
      exact (holds_budget_iff _ _).mpr (h.fits budget (Option.mem_toList.mp hmem))

/-! ## The objective -/

/-- The variables of plans follow those of indexes and each other, and every upkeep is that of
    an index. -/
structure IsNumbered (problem : SelectionProblem Rat) : Prop where
  consecutive :
    Choice.Consecutive problem.indexes.length (problem.queries ++ problem.supportChoices)
  index_lt : ∀ u ∈ problem.upkeep, u.index < problem.indexes.length

theorem objectiveValue_eq_sumTrue (problem : SelectionProblem Rat) (values : Array Bool) :
    problem.program.objectiveValue values
      = sumTrue Variable.objective (values.getD · false) problem.vars 0 := by
  have hvalue : ∀ v, values.getD v false = values.toList.getD v false := by
    intro v
    rw [Array.getD_eq_getD_getElem?, List.getD_eq_getElem?_getD, Array.getElem?_toList]
  rw [program, Program.ofParts_eq, Program.objectiveValue, Scalar.sum_rat, sum_map_filter]
  simp only [hvalue]
  exact sum_zip_eq_sumTrue Variable.objective problem.vars values.toList

/-- The plan variables cost what the plans that are taken cost. -/
theorem sumTrue_planVariables {value : Nat → Bool} {cs : List (Choice Rat)} :
    ∀ first, Choice.Consecutive first cs →
      sumTrue Variable.objective value (cs.flatMap planVariables) first
        = (cs.map (·.cost value)).sum := by
  induction cs with
  | nil => intro first _; rfl
  | cons c cs ih =>
      intro first h
      obtain ⟨hfirst, hrest⟩ := h
      have hlength : (planVariables c).length = c.plans.length := by
        rw [planVariables, List.length_map, List.length_zipIdx]
      have hobjectives : (planVariables c).map Variable.objective
          = c.plans.map Plan.attributedCost := by
        rw [planVariables, List.map_map]
        refine List.ext_getElem (by simp) ?_
        intro i hi hi'
        simp
      rw [List.flatMap_cons, sumTrue_append, hlength, ih _ hrest, List.map_cons, List.sum_cons,
        Choice.cost, hfirst, sumTrue_of_map_eq hobjectives]

/-- An index is charged the maintenance of its entries. -/
theorem upkeepCost_eq_sum (problem : SelectionProblem Rat) (index : Nat) :
    problem.upkeepCost index
      = ((problem.upkeep.filter (·.index == index)).map (·.maintenance.weightedCost)).sum := by
  rw [upkeepCost, ← zero_add (List.sum _), ← Scalar.foldl_add_rat, List.foldl_map,
    Scalar.zero_rat]

/-- What the chosen indexes are charged is the maintenance of the entries whose index is
    chosen. -/
theorem sum_upkeepCost {value : Nat → Bool} {n : Nat} (us : List (Upkeep Rat)) :
    (∀ u ∈ us, u.index < n) →
      (∑ v ∈ Finset.range n,
        if value v then ((us.filter (·.index == v)).map (·.maintenance.weightedCost)).sum else 0)
        = (us.map fun u => if value u.index then u.maintenance.weightedCost else 0).sum := by
  induction us with
  | nil =>
      intro _
      refine Finset.sum_eq_zero ?_
      intro v _
      split <;> rfl
  | cons u us ih =>
      intro h
      have hhead := h u (List.mem_cons_self ..)
      -- the entry adds to the charge of its own index alone
      have hsplit : ∀ v, (if value v then
            (((u :: us).filter (·.index == v)).map (·.maintenance.weightedCost)).sum else 0)
          = (if u.index = v then if value v then u.maintenance.weightedCost else 0 else 0)
            + if value v then
              ((us.filter (·.index == v)).map (·.maintenance.weightedCost)).sum else 0 := by
        intro v
        rw [List.filter_cons]
        by_cases hv : u.index = v
        · rw [if_pos (beq_iff_eq.mpr hv), if_pos hv, List.map_cons, List.sum_cons]
          split
          · rfl
          · exact (zero_add 0).symm
        · have hne : ¬ (u.index == v) = true := fun heq => hv (beq_iff_eq.mp heq)
          rw [if_neg hne, if_neg hv, zero_add]
      rw [Finset.sum_congr rfl fun v _ => hsplit v, Finset.sum_add_distrib, Finset.sum_ite_eq,
        if_pos (Finset.mem_range.mpr hhead), ih fun u hu => h u (List.mem_cons_of_mem _ hu),
        List.map_cons, List.sum_cons]

theorem sumTrue_indexVariables (hindex : ∀ u ∈ problem.upkeep, u.index < problem.indexes.length)
    (value : Nat → Bool) :
    sumTrue Variable.objective value (problem.indexes.zipIdx.map fun (i, v) =>
        ⟨s!"index_{i.key}", problem.upkeepCost v⟩) 0
      = (problem.upkeep.map fun u =>
          if value u.index then u.maintenance.weightedCost else 0).sum := by
  have hobjectives : (problem.indexes.zipIdx.map fun (i, v) =>
        (⟨s!"index_{i.key}", problem.upkeepCost v⟩ : Variable Rat)).map Variable.objective
      = (List.range problem.indexes.length).map problem.upkeepCost := by
    rw [List.map_map]
    refine List.ext_getElem (by simp) ?_
    intro i hi hi'
    simp
  rw [sumTrue_of_map_eq hobjectives, sumTrue_range, ← sum_upkeepCost problem.upkeep hindex]
  refine Finset.sum_congr rfl ?_
  intro v _
  rw [upkeepCost_eq_sum]

/-- The cost of an upkeep: of its maintenance, if its index is chosen, and of the support plans
    that values take. -/
def costOfUpkeep (value : Nat → Bool) (u : Upkeep Rat) : Rat :=
  (if value u.index then u.maintenance.weightedCost else 0)
    + ((u.support.getD []).map (·.cost value)).sum

/-- The cost of the plans that values take and of the maintenance of the indexes that they
    choose. -/
def costOf (problem : SelectionProblem Rat) (value : Nat → Bool) : Rat :=
  (problem.queries.map (·.cost value)).sum + (problem.upkeep.map (costOfUpkeep value)).sum

/-- **THE OBJECTIVE IS THE COST**: of the plans that values take and of the maintenance of the
    indexes that they choose. -/
theorem objectiveValue_eq_cost (h : problem.IsNumbered) (values : Array Bool) :
    problem.program.objectiveValue values = problem.costOf (values.getD · false) := by
  have hlength : (problem.indexes.zipIdx.map fun (i, v) =>
      (⟨s!"index_{i.key}", problem.upkeepCost v⟩ : Variable Rat)).length
        = problem.indexes.length := by
    rw [List.length_map, List.length_zipIdx]
  have hsupport : (problem.supportChoices.map (·.cost (values.getD · false))).sum
      = (problem.upkeep.map fun u =>
          ((u.support.getD []).map (·.cost (values.getD · false))).sum).sum := by
    rw [supportChoices, List.flatMap_def, List.map_flatten, List.sum_flatten, List.map_map,
      List.map_map]
    rfl
  rw [objectiveValue_eq_sumTrue, vars, sumTrue_append, hlength, zero_add,
    sumTrue_planVariables _ h.consecutive, sumTrue_indexVariables h.index_lt, List.map_append,
    List.sum_append, hsupport, costOf]
  show _ = _ + (problem.upkeep.map fun u => _ + _).sum
  rw [List.sum_map_add]
  linarith

end SelectionProblem

end IndexDesign
