import IndexDesign.Proofs.Selection.Completeness

/-! # The program of a selection problem is exact

    Solutions of the zero-one program and layouts cover each other: a solution
    is a layout of the same cost, and a layout is a solution that costs no
    more.  So one exists where the other does, and the least objective is the
    least cost.  There is a least objective, since there are only so many
    values. -/

namespace IndexDesign

open ZeroOne

/-- The objectives of all feasible values. -/
def ZeroOne.Program.objectives (m : Program Rat) : Set Rat :=
  m.objectiveValue '' {values | m.isFeasible values = true}

/-- The costs of all layouts that keep the rules. -/
def layoutCosts (indexes : List Index) (queries : List (StatementCosts Rat))
    (maintenance : List (MaintenanceCosts Rat)) (budget : Option Rat) : Set Rat :=
  Layout.cost maintenance '' {d | d.IsDesign indexes queries maintenance budget}

namespace SelectionProblem

/-- A program with a solution has one of least objective. -/
theorem exists_isLeast_objectives {m : Program Rat} (h : ∃ values, m.isFeasible values = true) :
    ∃ least, IsLeast m.objectives least := by
  have hfinite : {values | m.isFeasible values = true}.Finite := by
    refine ((List.finite_length_eq Bool m.vars.size).image List.toArray).subset ?_
    intro values hvalues
    have hsize := beq_iff_eq.mp ((Bool.and_eq_true _ _).mp hvalues).1
    exact ⟨values.toList, Array.length_toList.trans hsize, Array.toArray_toList⟩
  obtain ⟨best, hbest, hle⟩ := Set.exists_min_image _ m.objectiveValue hfinite h
  refine ⟨m.objectiveValue best, Set.mem_image_of_mem _ hbest, ?_⟩
  rintro x ⟨values, hvalues, rfl⟩
  exact hle values hvalues

variable {indexes : List Index} {queries : List (StatementCosts Rat)}
  {maintenance : List (MaintenanceCosts Rat)} {config : SelectionConfig Rat}

/-- A query without plans over candidates that fit the budget leaves no layout. -/
theorem not_isDesign_of_unanswered {c : StatementCosts Rat} (hc : c ∈ queries)
    (hnone : ∀ p ∈ c.plans, ∃ i ∈ p.lookedUp, ∀ j ∈ Index.pool indexes, j.key = i.key →
      ∃ b, config.spaceBudget = some b ∧ b < j.size) :
    ¬ ∃ d : Layout, d.IsDesign indexes queries maintenance config.spaceBudget := by
  rintro ⟨d, hd⟩
  obtain ⟨p, -, hp, hchosen⟩ := exists_of_forall₂_left hd.queries hc
  obtain ⟨i, hi, hlarge⟩ := hnone p hp
  obtain ⟨j, hj, hdescriptor⟩ := isChosen_iff.mp (hchosen i hi)
  obtain ⟨b, hb, hlt⟩ := hlarge j (hd.candidates j hj)
    (Index.key_eq_of_descriptor_eq hdescriptor)
  have hle : (j.size : Rat) ≤ (d.chosen.map Index.size).sum := by
    refine List.single_le_sum ?_ _ (List.mem_map_of_mem hj)
    intro x hx
    obtain ⟨k, -, rfl⟩ := List.mem_map.mp hx
    exact k.size_nonneg
  linarith [hd.fits b hb]

/-- **THE PROGRAM IS THE PROBLEM**: building fails only for want of layouts; the program that is
    built has a solution exactly when there is a layout, and then its least objective is the
    least cost of a layout. -/
theorem build_exact (hover : IsOver indexes queries maintenance)
    (hbudget : ∀ budget, config.spaceBudget = some budget → IsInteger budget) :
    (build indexes queries maintenance config = .error (.noSolution config.spaceBudget)
        ∧ ¬ ∃ d : Layout, d.IsDesign indexes queries maintenance config.spaceBudget)
      ∨ ∃ problem, build indexes queries maintenance config = .ok problem
        ∧ ((∃ values, problem.program.isFeasible values = true)
            ↔ ∃ d : Layout, d.IsDesign indexes queries maintenance config.spaceBudget)
        ∧ ((∃ d : Layout, d.IsDesign indexes queries maintenance config.spaceBudget) →
            ∃ least, IsLeast problem.program.objectives least
              ∧ IsLeast (layoutCosts indexes queries maintenance config.spaceBudget) least) := by
  have hpool : ∀ c ∈ queries, ∀ p ∈ c.plans, ∀ i ∈ p.lookedUp,
      i.key ∈ (Index.pool indexes).map (·.key) := by
    intro c hc p hp i hi
    obtain ⟨j, hj, hji⟩ := (hover.query c hc p hp).2 i hi
    obtain ⟨k, hk, hkj⟩ := Index.exists_mem_pool hj
    exact List.mem_map.mpr ⟨k, hk, Index.key_eq_of_descriptor_eq (hkj.trans hji)⟩
  rcases build_cases indexes queries maintenance config hpool with
    ⟨kept, restricted, candidates, hpresolved, hbuild⟩ | ⟨hbuild, c, hc, hnone⟩
  · refine .inr ⟨_, hbuild, ?_⟩
    have hnumbered := isNumbered_restrictTo candidates restricted maintenance config.spaceBudget
    generalize hproblem : restrictTo candidates restricted maintenance config.spaceBudget = problem
    -- a solution is a layout of the same cost
    have hsound : ∀ values, problem.program.isFeasible values = true →
        ∃ d : Layout, d.IsDesign indexes queries maintenance config.spaceBudget
          ∧ problem.program.objectiveValue values = d.cost maintenance := by
      subst hproblem
      intro values hvalues
      obtain ⟨-, hsolves⟩ := (isFeasible_iff_solves hbudget).mp hvalues
      rw [objectiveValue_eq_cost hnumbered]
      exact exists_isDesign_of_solves hover hpresolved hsolves
    -- and a layout is a solution that costs no more
    have hcomplete : ∀ d : Layout, d.IsDesign indexes queries maintenance config.spaceBudget →
        ∃ values, problem.program.isFeasible values = true
          ∧ problem.program.objectiveValue values ≤ d.cost maintenance := by
      subst hproblem
      intro d hd
      obtain ⟨values, hsize, hsolves, hle⟩ := exists_solves_of_isDesign hover hpresolved hd
      refine ⟨values, (isFeasible_iff_solves hbudget).mpr ⟨hsize, hsolves⟩, ?_⟩
      rw [objectiveValue_eq_cost hnumbered]
      exact hle
    refine ⟨⟨?_, ?_⟩, ?_⟩
    · rintro ⟨values, hvalues⟩
      obtain ⟨d, hd, -⟩ := hsound values hvalues
      exact ⟨d, hd⟩
    · rintro ⟨d, hd⟩
      obtain ⟨values, hvalues, -⟩ := hcomplete d hd
      exact ⟨values, hvalues⟩
    · rintro ⟨d, hd⟩
      obtain ⟨values, hvalues, -⟩ := hcomplete d hd
      obtain ⟨least, hleast⟩ := exists_isLeast_objectives ⟨values, hvalues⟩
      refine ⟨least, hleast, ?_, ?_⟩
      · obtain ⟨best, hbest, hobjective⟩ := hleast.1
        obtain ⟨e, he, hcost⟩ := hsound best hbest
        exact ⟨e, he, by rw [← hcost, hobjective]⟩
      · rintro x ⟨e, he, rfl⟩
        obtain ⟨found, hfound, hle⟩ := hcomplete e he
        exact le_trans (hleast.2 (Set.mem_image_of_mem _ hfound)) hle
  · exact .inl ⟨hbuild, not_isDesign_of_unanswered hc hnone⟩

/-! ## One index

    One query for users by their identifier, and one write that maintains the
    index for it.  The budget is the size of the index. -/

/-- The identifier of a user. -/
def userId : Field := Field.ofType "user" "id" .id

def userEntity : Entity := ⟨"user", 100, userId, SortedSet.ofList [userId]⟩

/-- Users by their identifier. -/
def userIndex : Index where
  partition := SortedSet.ofList [userId]
  ordered := []
  extra := ∅
  aggregates := ∅
  groupBy := ∅
  graph := JoinGraph.single userEntity

def userQuery : Query Rat where
  text := "user"
  select := SortedSet.ofList [userId]
  eq := SortedSet.ofList [userId]
  range := ∅
  orderBy := []
  groupBy := ∅
  aggregates := ∅
  limit := none
  graph := JoinGraph.single userEntity
  weight := 1
  handle := 0

def userPlan : Plan Rat := ⟨[⟨.lookup userIndex 1, 5, 1⟩], PlanState.start userQuery⟩

def userCosts : StatementCosts Rat := ⟨userQuery, [userPlan], 0⟩

def userUpdate : Update Rat where
  text := "insert"
  kind := .insert
  entity := userEntity
  settings := SortedSet.ofList [userId]
  eq := ∅
  graph := JoinGraph.single userEntity
  weight := 2

def userMaintenance : MaintenanceCosts Rat :=
  ⟨⟨userUpdate, userIndex, some [], [⟨.insert userIndex, 3, 1⟩]⟩, some [userCosts]⟩

def userConfig : SelectionConfig Rat := ⟨some 1600, 1 / 1000, 1000000, true⟩

theorem isOver_user : IsOver [userIndex] [userCosts] [userMaintenance] := by
  have hindex : IsCandidate [userIndex] userIndex := isCandidate_of_mem (List.mem_singleton.mpr rfl)
  have hplan : ∀ p ∈ userCosts.plans,
      0 ≤ p.attributedCost ∧ ∀ i ∈ p.lookedUp, IsCandidate [userIndex] i := by
    intro p hp
    rw [List.mem_singleton.mp hp]
    refine ⟨by decide +kernel, ?_⟩
    intro i hi
    rw [List.mem_singleton.mp hi]
    exact hindex
  refine ⟨?_, ?_, ?_, ?_⟩
  · intro i hi j hj _
    rw [List.mem_singleton.mp hi, List.mem_singleton.mp hj]
  · intro c hc
    rw [List.mem_singleton.mp hc]
    exact hplan
  · intro e he
    rw [List.mem_singleton.mp he]
    exact ⟨by decide +kernel, hindex⟩
  · intro e he costs hcosts c hc
    rw [List.mem_singleton.mp he] at hcosts
    rw [← Option.some.inj hcosts] at hc
    rw [List.mem_singleton.mp hc]
    exact hplan

/-- The index with the plan for the query, and the plan once more for the write. -/
theorem isDesign_user :
    Layout.IsDesign [userIndex] [userCosts] [userMaintenance] (some 1600)
      ⟨[userIndex], [userPlan], [[userPlan]]⟩ := by
  have hchosen : isChosen [userIndex] userIndex = true :=
    isChosen_iff.mpr ⟨userIndex, List.mem_singleton.mpr rfl, rfl⟩
  have hanswers : Answers [userIndex] userCosts userPlan := by
    refine ⟨List.mem_singleton.mpr rfl, ?_⟩
    intro i hi
    rw [List.mem_singleton.mp hi]
    exact hchosen
  refine ⟨List.nodup_singleton _, ?_, .cons hanswers .nil, .cons ?_ .nil, ?_⟩
  · intro i hi
    exact hi
  · show if isChosen [userIndex] userIndex then _ else _
    rw [if_pos hchosen]
    exact ⟨[userCosts], rfl, .cons hanswers .nil⟩
  · intro b hb
    rw [← Option.some.inj hb]
    decide +kernel

/-- The problem of one index that just fits the budget has a solution, and the least objective
    is the least cost. -/
theorem build_exact_user :
    IsOver [userIndex] [userCosts] [userMaintenance]
      ∧ (∀ budget, userConfig.spaceBudget = some budget → IsInteger budget)
      ∧ ∃ problem, build [userIndex] [userCosts] [userMaintenance] userConfig = .ok problem
        ∧ (∃ values, problem.program.isFeasible values = true)
        ∧ ∃ least, IsLeast problem.program.objectives least
          ∧ IsLeast (layoutCosts [userIndex] [userCosts] [userMaintenance] (some 1600)) least := by
  have hbudget : ∀ budget, userConfig.spaceBudget = some budget → IsInteger budget := by
    intro b hb
    rw [← Option.some.inj hb]
    exact IsInteger.ofCount 1600
  have hdesign : ∃ d : Layout,
      d.IsDesign [userIndex] [userCosts] [userMaintenance] userConfig.spaceBudget :=
    ⟨_, isDesign_user⟩
  refine ⟨isOver_user, hbudget, ?_⟩
  rcases build_exact isOver_user hbudget with ⟨-, hnone⟩ | ⟨problem, hbuild, hiff, hleast⟩
  · exact absurd hdesign hnone
  · exact ⟨problem, hbuild, hiff.mpr hdesign, hleast hdesign⟩

end SelectionProblem

end IndexDesign
