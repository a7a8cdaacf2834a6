import IndexDesign.Proofs.Selection.Consistency

/-! # Faults — which rules a design for a workload can break

    A design that is read back is checked once more before it is returned.  The
    rules about indexes and plans hold of it, since it realizes the workload.
    Two rules are of another kind.

    * Plans are told apart by their queries.  A query that is entered in the
      workload more than once has a plan for each entry, and the check takes
      these for several plans of one statement.
    * The program compares the budget with an absolute slack and the check with
      a relative one.  Sizes are whole numbers of bytes, so the two agree but
      for a total of one byte. -/

namespace IndexDesign

open ZeroOne

namespace Design

variable {r : Design Rat}

/-! ## Plans -/

theorem isSelected_of_mem {i : Index} (h : i ∈ r.indexes) : r.isSelected i = true :=
  isChosen_iff.mpr ⟨i, h, rfl⟩

theorem usesUnselected?_eq_none {p : Plan Rat} (h : ∀ i ∈ p.indexes, i ∈ r.indexes) :
    r.usesUnselected? p = none := by
  have hfind : p.indexes.find? (!r.isSelected ·) = none := by
    refine List.find?_eq_none.mpr fun i hi => ?_
    rw [isSelected_of_mem (h i hi)]
    exact Bool.false_ne_true
  rw [usesUnselected?, hfind]
  rfl

/-- The plans of queries break a rule only where a query comes a second time. -/
theorem planFault?_cases {p : Planner Rat} {queries : List (Query Rat)} {plans : List (Plan Rat)}
    (h : List.Forall₂ (p.IsPlanOver r.indexes) queries plans) :
    ∀ before : List (Plan Rat), (before.map (·.query.handle)).Nodup →
      (r.planFault? before plans = none
          ∧ (before.map (·.query.handle) ++ queries.map (·.handle)).Nodup)
        ∨ ∃ q ∈ queries, r.planFault? before plans = some (.planRepeated q.text)
          ∧ 1 < (before.map (·.query.handle) ++ queries.map (·.handle)).count q.handle := by
  induction h with
  | nil =>
      intro before hnodup
      refine .inl ⟨rfl, ?_⟩
      rwa [List.map_nil, List.append_nil]
  | @cons q plan queries plans hplan hrest ih =>
      intro before hnodup
      obtain ⟨hof, huses⟩ := hplan
      have hquery := hof.query_eq
      have hperm : (before.map (·.query.handle) ++ (q :: queries).map (·.handle)).Perm
          ((plan :: before).map (·.query.handle) ++ queries.map (·.handle)) := by
        rw [List.map_cons, List.map_cons, hquery]
        exact List.perm_middle
      unfold planFault?
      by_cases hseen : before.any (·.query.handle == plan.query.handle) = true
      · rw [if_pos hseen, hquery]
        obtain ⟨other, hother, hsame⟩ := List.any_eq_true.mp hseen
        have hmem : q.handle ∈ before.map (·.query.handle) := by
          rw [← hquery, ← eq_of_beq hsame]
          exact List.mem_map_of_mem hother
        refine .inr ⟨q, List.mem_cons_self, rfl, ?_⟩
        rw [List.count_append, List.map_cons, List.count_cons_self]
        have hpos := List.count_pos_iff.mpr hmem
        omega
      · rw [if_neg hseen, usesUnselected?_eq_none huses, Option.none_or]
        have hfresh : ((plan :: before).map (·.query.handle)).Nodup := by
          refine List.nodup_cons.mpr ⟨fun hmem => hseen ?_, hnodup⟩
          obtain ⟨other, hother, hsame⟩ := List.mem_map.mp hmem
          exact List.any_eq_true.mpr ⟨other, hother, beq_iff_eq.mpr hsame⟩
        rcases ih (plan :: before) hfresh with ⟨hnone, hall⟩ | ⟨other, hother, hfault, hcount⟩
        · exact .inl ⟨hnone, hperm.nodup_iff.mpr hall⟩
        · refine .inr ⟨other, List.mem_cons_of_mem _ hother, hfault, ?_⟩
          rwa [hperm.count_eq]

/-- An update plan over chosen indexes breaks no rule. -/
theorem updateFault?_eq_none {p : Planner Rat} {t : Update Rat × Index} {u : UpdatePlan Rat}
    (h : p.IsUpdatePlanOver r.indexes t u) (ht : t.2 ∈ r.indexes) : r.updateFault? u = none := by
  unfold updateFault?
  rw [h.index, if_pos (isSelected_of_mem ht), List.findSome?_eq_none_iff]
  obtain ⟨queries, -, hplans⟩ := h.support
  intro plan hplan
  obtain ⟨q, -, -, huses⟩ := exists_of_forall₂_right hplans hplan
  exact usesUnselected?_eq_none huses

/-! ## The budget -/

theorem isInteger_totalSize (r : Design Rat) : IsInteger r.totalSize := by
  rw [totalSize, Scalar.sum_rat]
  refine IsInteger.sum fun x hx => ?_
  obtain ⟨i, -, rfl⟩ := List.mem_map.mp hx
  exact i.isInteger_size

/-- Indexes that fit the budget but for the absolute slack exceed it by more than the relative
    one only if they take a single byte. -/
theorem totalSize_eq_one {b : Rat} (hb : 0 ≤ b) (hfits : r.totalSize ≤ b + Scalar.tolerance)
    (hover : b * (1 + 1 / 10 ^ 9) < r.totalSize) : r.totalSize = 1 := by
  obtain ⟨n, hn⟩ := r.isInteger_totalSize
  rw [Scalar.tolerance_rat] at hfits
  rw [hn] at hfits hover ⊢
  have hpos : 0 < n := by
    have hlt : (0 : Rat) < n := by nlinarith
    exact_mod_cast hlt
  have hlt : n < 2 := by
    have hlt : (n : Rat) < 2 := by nlinarith
    exact_mod_cast hlt
  have hone : n = 1 := by omega
  rw [hone]
  exact Int.cast_one

/-- The fault of a budget that is exceeded names a total of one byte. -/
theorem overBudget?_cases {budget : Option Rat} (hbudget : r.budget = budget)
    (hnonneg : ∀ b, budget = some b → 0 ≤ b)
    (hfits : ∀ b, budget = some b → r.totalSize ≤ b + Scalar.tolerance) :
    r.overBudget? = none
      ∨ ∃ b, budget = some b ∧ 1 - 1 / 10 ^ 9 ≤ b ∧ b * (1 + 1 / 10 ^ 9) < 1
          ∧ r.overBudget? = some (.overBudget 1 b) := by
  unfold overBudget?
  rw [hbudget]
  cases budget with
  | none => exact .inl rfl
  | some b =>
      rw [Option.bind_some]
      split
      · next hover =>
        rw [Scalar.one_rat, Scalar.tolerance_rat] at hover
        have hle := hfits b rfl
        have hone := totalSize_eq_one (hnonneg b rfl) hle (by norm_num at hover ⊢; exact hover)
        rw [hone] at hle hover ⊢
        rw [Scalar.tolerance_rat] at hle
        refine .inr ⟨b, rfl, ?_, ?_, rfl⟩
        · norm_num at hle ⊢
          linarith
        · norm_num at hover ⊢
          exact hover
      · exact .inl rfl

end Design

/-! ## Workloads -/

namespace Designer

variable {d : Designer Rat} {r : Design Rat}

/-- The update plans of a design that realizes the workload break no rule. -/
theorem findSome?_updateFault?_eq_none (h : d.IsRealizedBy r) :
    r.updates.findSome? r.updateFault? = none := by
  refine List.findSome?_eq_none_iff.mpr fun u hu => ?_
  obtain ⟨t, ht, hover⟩ := exists_of_forall₂_right h.updates hu
  obtain ⟨write, -, ht⟩ := List.mem_flatMap.mp ht
  obtain ⟨i, hi, rfl⟩ := List.mem_map.mp ht
  exact Design.updateFault?_eq_none hover (List.mem_filter.mp hi).1

/-- **WHICH RULES CAN BE BROKEN** by a design that realizes the workload and fits the budget but
    for the slack: that a query has one plan, by a query that is entered more than once, and that
    of the budget, by a single byte. -/
theorem fault?_cases (h : d.IsRealizedBy r) (hbudget : r.budget = d.config.spaceBudget)
    (hnonneg : ∀ b, d.config.spaceBudget = some b → 0 ≤ b)
    (hfits : ∀ b, d.config.spaceBudget = some b → r.totalSize ≤ b + Scalar.tolerance) :
    (r.fault? = none ∧ (d.workload.queries.map (·.handle)).Nodup)
      ∨ (∃ q ∈ d.workload.queries, 1 < (d.workload.queries.map (·.handle)).count q.handle
          ∧ r.fault? = some (.planRepeated q.text))
      ∨ ∃ b, d.config.spaceBudget = some b ∧ 1 - 1 / 10 ^ 9 ≤ b ∧ b * (1 + 1 / 10 ^ 9) < 1
          ∧ r.fault? = some (.overBudget 1 b) := by
  unfold Design.fault?
  rcases Design.overBudget?_cases hbudget hnonneg hfits with hwithin | ⟨b, hb, hle, hlt, hover⟩
  · rw [hwithin, Option.none_or]
    rcases Design.planFault?_cases h.plans [] List.nodup_nil with
      ⟨hnone, hnodup⟩ | ⟨q, hq, hfault, hcount⟩
    · rw [hnone, Option.none_or, findSome?_updateFault?_eq_none h]
      exact .inl ⟨rfl, hnodup⟩
    · rw [hfault]
      exact .inr (.inl ⟨q, hq, hcount, rfl⟩)
  · rw [hover]
    exact .inr (.inr ⟨b, hb, hle, hlt, rfl⟩)

/-- **HOW DESIGNING ENDS**, with a budget that is not negative: in a design, and then no query is
    entered more than once; in an error of planning, for want of a design that fits, or at the
    limit of the solver; and else in an internal error, for a query that is entered more than once
    or, with a budget just short of one byte, for indexes of one byte. -/
theorem design_outcomes {w : Workload Rat} {indexes : List Index}
    (hkeys : Index.KeysDistinct indexes) (costs : CostModel Rat) (planning : PlanningConfig Rat)
    {selection : SelectionConfig Rat}
    (hnonneg : ∀ b, selection.spaceBudget = some b → 0 ≤ b) :
    (∃ r, (ofIndexes w indexes costs planning selection).design = .ok r
        ∧ (w.queries.map (·.handle)).Nodup)
      ∨ (∃ e, (ofIndexes w indexes costs planning selection).design = .error (.planning e))
      ∨ (ofIndexes w indexes costs planning selection).design
          = .error (.selection (.noSolution selection.spaceBudget))
      ∨ (ofIndexes w indexes costs planning selection).design
          = .error (.selection (.solverLimit (max selection.maxNodes 1)))
      ∨ (∃ q ∈ w.queries, 1 < (w.queries.map (·.handle)).count q.handle
          ∧ (ofIndexes w indexes costs planning selection).design
            = .error (.selection (.internal (.planRepeated q.text))))
      ∨ ∃ b, selection.spaceBudget = some b ∧ 1 - 1 / 10 ^ 9 ≤ b ∧ b * (1 + 1 / 10 ^ 9) < 1
          ∧ (ofIndexes w indexes costs planning selection).design
            = .error (.selection (.internal (.overBudget 1 b))) := by
  rcases design_cases (d := ofIndexes w indexes costs planning selection) rfl hkeys with
    hplanning | hnoSolution | hlimit | ⟨r, hrealized, hbudget, hfits, hresult⟩
  · exact .inr (.inl hplanning)
  · exact .inr (.inr (.inl hnoSolution))
  · exact .inr (.inr (.inr (.inl hlimit)))
  have hdesign : ∀ fault, r.fault? = some fault →
      (ofIndexes w indexes costs planning selection).design
        = .error (.selection (.internal fault)) := by
    intro fault hfault
    rcases hresult with ⟨hnone, -⟩ | ⟨other, hother, herror⟩
    · exact nomatch hnone.symm.trans hfault
    · rwa [Option.some.inj (hfault.symm.trans hother)]
  rcases fault?_cases hrealized hbudget hnonneg hfits with
    ⟨hnone, hnodup⟩ | ⟨q, hq, hcount, hfault⟩ | ⟨b, hb, hle, hlt, hfault⟩
  · rcases hresult with ⟨-, hok⟩ | ⟨fault, hfault, -⟩
    · exact .inl ⟨r, hok, hnodup⟩
    · exact nomatch hnone.symm.trans hfault
  · exact .inr (.inr (.inr (.inr (.inl ⟨q, hq, hcount, hdesign _ hfault⟩))))
  · exact .inr (.inr (.inr (.inr (.inr ⟨b, hb, hle, hlt, hdesign _ hfault⟩))))

/-- Users that become older have a design, and their names are asked for once. -/
theorem design_outcomes_birthday :
    Index.KeysDistinct [Planner.cityIndex, userByIdIndex]
      ∧ (∀ b, birthdayConfig.spaceBudget = some b → 0 ≤ b)
      ∧ ∃ r, (ofIndexes birthdayWorkload [Planner.cityIndex, userByIdIndex] .requestCount {}
          birthdayConfig).design = .ok r
        ∧ (birthdayWorkload.queries.map (·.handle)).Nodup := by
  have hnonneg : ∀ b, birthdayConfig.spaceBudget = some b → (0 : Rat) ≤ b := by
    rintro _ ⟨⟩
    decide +kernel
  have hdesigned : (ofIndexes birthdayWorkload [Planner.cityIndex, userByIdIndex]
      (.requestCount : CostModel Rat) {} birthdayConfig).design.toOption.isSome = true := by
    decide +kernel
  refine ⟨keysDistinct_birthday, hnonneg, ?_⟩
  rcases design_outcomes (w := birthdayWorkload) keysDistinct_birthday .requestCount {} hnonneg with
    hok | ⟨e, herror⟩ | herror | herror | ⟨q, -, -, herror⟩ | ⟨b, -, -, -, herror⟩
  · exact hok
  all_goals
    rw [herror] at hdesigned
    exact nomatch hdesigned

/-! ## A query that is entered twice -/

/-- The names of a city's users are asked for, and the same query is entered once more. -/
def namesTwice : Workload Rat :=
  ((Workload.ofModel Planner.userModel).add (.read Planner.namesQuery)).addAgain 0

/-- There is a plan for each entry, but designing ends in an internal error; entered as a
    statement of its own, the second query has a design. -/
theorem namesTwice_internal :
    (ofIndexes namesTwice [Planner.cityIndex] .requestCount {} .standard).design
        = .error (.selection (.internal (.planRepeated "names")))
      ∧ ∃ r, (ofIndexes (((Workload.ofModel Planner.userModel).add (.read Planner.namesQuery)).add
          (.read Planner.namesQuery)) [Planner.cityIndex] .requestCount {} .standard).design
            = .ok r := by
  constructor
  · have hrepeated : (match (ofIndexes namesTwice [Planner.cityIndex]
        (.requestCount : CostModel Rat) {} .standard).design with
      | .error (.selection (.internal (.planRepeated text))) => text == "names"
      | _ => false) = true := by decide +kernel
    split at hrepeated
    · next text herror => rw [herror, eq_of_beq hrepeated]
    · exact nomatch hrepeated
  · have hdesigned : (ofIndexes (((Workload.ofModel Planner.userModel).add
        (.read Planner.namesQuery)).add (.read Planner.namesQuery)) [Planner.cityIndex]
        (.requestCount : CostModel Rat) {} .standard).design.toOption.isSome = true := by
      decide +kernel
    obtain ⟨r, hr⟩ := Option.isSome_iff_exists.mp hdesigned
    exact ⟨r, Planner.toOption_eq_some_iff.mp hr⟩

end Designer

end IndexDesign
