import IndexDesign.Proofs.Selection.Soundness

/-! # Reading designs back from values

    Feasible values take one plan for each query and one for each support query
    of an index that they choose.  Reading the values back finds these plans
    and no others: no query is left without one, and the update plans are those
    of the entries whose index is chosen, each with all of its support plans.

    Nothing is asked of the budget here.  Constraints are compared with a
    slack, and the sizes of indexes are integers but a budget need not be one,
    so what is read back may exceed the budget by the slack. -/

namespace IndexDesign

open ZeroOne

/-! ## The plan of a choice -/

namespace Choice

variable {c : Choice Rat} {a : Assignment Rat} {p : Plan Rat}

/-- The plan that is taken is the one that is read back. -/
theorem selected?_of_takes (h : c.Takes a.value (some p)) : c.selected? a = some p := by
  cases hfound : c.numbered.find? fun (_, v) => a.value v with
  | none =>
      obtain ⟨j, honly, hp⟩ := h
      have hmem : (p, c.first + j) ∈ c.numbered :=
        List.mk_mem_zipIdx_iff_le_and_getElem?_sub.mpr
          ⟨Nat.le_add_right _ _, by rwa [Nat.add_sub_cancel_left]⟩
      exact absurd ((honly.2 j honly.1).mpr rfl) (List.find?_eq_none.mp hfound _ hmem)
  | some t =>
      obtain ⟨q, v⟩ := t
      have htrue := List.find?_some hfound
      obtain ⟨hle, hq⟩ :=
        List.mk_mem_zipIdx_iff_le_and_getElem?_sub.mp (List.mem_of_find?_eq_some hfound)
      rw [selected?, hfound, Option.map_some, eq_of_takes h hq]
      rwa [Nat.add_sub_cancel' hle]

/-- Numbering leaves the queries and their plans. -/
theorem forall₂_number {α : Type} (costs : List (String × StatementCosts α)) :
    ∀ first, List.Forall₂ (fun c t => c.plans = t.2.plans) (number first costs) costs := by
  induction costs with
  | nil => intro first; exact .nil
  | cons t costs ih => intro first; exact .cons rfl (ih _)

end Choice

namespace SelectionProblem

variable {problem : SelectionProblem Rat} {a : Assignment Rat}

/-! ## What feasible values take -/

/-- The problem with as much more budget as constraints are compared with. -/
def withSlack (problem : SelectionProblem Rat) : SelectionProblem Rat :=
  { problem with budget := problem.budget.map (· + Scalar.tolerance) }

/-- The constraint of the budget allows for the slack. -/
theorem isSatisfied_budget_iff {values : Array Bool} (budget : Rat) :
    (Program.kept ⟨"space_budget", sizeTerms problem.indexes, .atMost, budget⟩).isSatisfied values
        = true
      ↔ ((chosenBy problem.indexes (values.getD · false)).map Index.size).sum
        ≤ budget + Scalar.tolerance := by
  refine Iff.trans ?_ (holds_budget_iff "space_budget" (budget + Scalar.tolerance))
  show decide ((Program.kept _).activity values ≤ budget + Scalar.tolerance) = true ↔ _
  rw [decide_eq_true_iff, Program.activity_kept (isInteger_sizeTerms _)]
  exact Iff.rfl

/-- **FEASIBLE VALUES SOLVE THE PROBLEM** but for the slack of its budget, and no others do. -/
theorem isFeasible_iff_withSlack {values : Array Bool} :
    problem.program.isFeasible values = true
      ↔ values.size = problem.vars.length ∧ problem.withSlack.Solves (values.getD · false) := by
  -- without a budget all constraints are over integers
  have hunbounded : ({ problem with budget := none } : SelectionProblem Rat).program.isFeasible
      values = true ↔ _ := isFeasible_iff_solves (by intro budget hb; cases hb)
  have hnone : ({ problem with budget := none } : SelectionProblem Rat).program
      = Program.ofParts problem.vars
        (problem.queries.flatMap problem.queryRows ++ problem.upkeep.flatMap problem.upkeepRows) :=
    congrArg (Program.ofParts problem.vars) (List.append_nil _)
  rw [program, Program.isFeasible_ofParts_append, ← hnone, hunbounded, and_assoc]
  refine and_congr_right fun _ => ⟨fun h => ?_, fun h => ?_⟩
  · obtain ⟨hsolves, hbudget⟩ := h
    refine ⟨hsolves.query, hsolves.upkeep, fun slack hslack => ?_⟩
    obtain ⟨budget, hb, rfl⟩ := Option.map_eq_some_iff.mp hslack
    refine (isSatisfied_budget_iff budget).mp (hbudget _ ?_)
    exact List.mem_map.mpr ⟨budget, Option.mem_toList.mpr hb, rfl⟩
  · refine ⟨⟨h.query, h.upkeep, fun budget hb => by cases hb⟩, fun row hrow => ?_⟩
    obtain ⟨budget, hmem, rfl⟩ := List.mem_map.mp hrow
    refine (isSatisfied_budget_iff budget).mpr (h.fits _ ?_)
    exact Option.map_eq_some_iff.mpr ⟨budget, Option.mem_toList.mp hmem, rfl⟩

theorem solves_of_isFeasible {values : Array Bool} (h : problem.program.isFeasible values = true) :
    problem.withSlack.Solves (values.getD · false) :=
  (isFeasible_iff_withSlack.mp h).2

/-- Reading back finds a plan for every query. -/
theorem plansOf_eq_ok (h : ∀ c ∈ problem.queries, c.count a.value = 1) :
    ∃ plans, problem.plansOf a = .ok plans
      ∧ List.Forall₂ (fun c p => c.Takes a.value (some p)) problem.queries plans := by
  obtain ⟨plans, hplans⟩ := exists_forall₂ problem.queries fun c hc =>
    Choice.exists_takes_of_count (h c hc)
  refine ⟨plans, (mapM_eq_ok_iff _ _).mpr (hplans.imp fun c p hp => ?_), hplans⟩
  rw [Choice.selected?_of_takes hp]

/-- The plans of numbered choices are those of the queries that were numbered. -/
theorem mem_plans_of_takes {candidates : List Index} {value : Nat → Bool}
    {costs : List (String × StatementCosts Rat)} {first : Nat} {plans : List (Plan Rat)}
    (htakes : List.Forall₂ (fun c p => c.Takes value (some p)) (Choice.number first costs) plans)
    (huses : ∀ c ∈ Choice.number first costs, UsesChosen candidates value c) :
    List.Forall₂ (fun r p => p ∈ r.plans ∧ IsOverChosen candidates value p) (costs.map (·.2))
      plans := by
  rw [List.forall₂_map_left_iff]
  have hboth := forall₂_trans (Choice.forall₂_number costs first).flip
    ((List.forall₂_and_left _ _).mpr ⟨huses, htakes⟩)
  refine hboth.imp ?_
  rintro t p ⟨c, hplans, hchosen, hp⟩
  refine ⟨?_, hchosen.of_takes hp⟩
  rw [← hplans]
  exact Choice.mem_plans_of_takes hp

/-! ## The update plans -/

/-- The update plan that is read back for an upkeep. -/
def updatePlanOf (a : Assignment Rat) (u : Upkeep Rat) : UpdatePlan Rat :=
  ⟨u.maintenance.statement, u.maintenance.index, (u.support.getD []).filterMap (·.selected? a),
    u.maintenance.steps⟩

/-- A chosen index has a plan for each of its support queries, and these are read back. -/
theorem takes_support {indexes : List Index} {u : Upkeep Rat} (h : Maintains indexes a.value u)
    (hchosen : a.value u.index = true) :
    ∃ choices, u.support = some choices
      ∧ List.Forall₂ (fun c p => c.Takes a.value (some p)) choices (updatePlanOf a u).support := by
  cases hsupport : u.support with
  | none => exact nomatch (h.unsupported hsupport).symm.trans hchosen
  | some choices =>
      have hcount : ∀ c ∈ choices, c.count a.value = 1 := by
        intro c hc
        rw [(h.support choices hsupport c hc).1, hchosen, if_pos rfl]
      obtain ⟨plans, hplans⟩ := exists_forall₂ choices fun c hc =>
        Choice.exists_takes_of_count (hcount c hc)
      refine ⟨choices, rfl, ?_⟩
      rw [updatePlanOf, hsupport]
      have hread := filterMap_of_forall₂ (hplans.imp fun c p hp => Choice.selected?_of_takes hp)
      exact hread.symm ▸ hplans

/-- The update plan is that of an entry, with a plan over chosen indexes for each of its support
    queries. -/
structure IsUpkeptBy (chosen : List Index) (e : MaintenanceCosts Rat) (u : UpdatePlan Rat) :
    Prop where
  statement : u.statement = e.maintenance.statement
  index : u.index = e.maintenance.index
  steps : u.steps = e.maintenance.steps
  support : ∃ costs, e.support = some costs ∧ List.Forall₂ (Answers chosen) costs u.support

section Entries

variable {indexes candidates : List Index} (hpart : IsPartOf candidates indexes)

include hpart

/-- An entry whose index is chosen has all of its support plans read back. -/
theorem isUpkeptBy_of_maintains {e : MaintenanceCosts Rat} {u : Upkeep Rat} {next : Nat}
    (hover : IsEntryOver indexes e) (hu : IsUpkeepOf candidates next e u)
    (h : Maintains candidates a.value u) (hchosen : a.value u.index = true) :
    IsUpkeptBy (chosenBy candidates a.value) e (updatePlanOf a u) := by
  obtain ⟨label, hsupport⟩ := hu.support
  refine ⟨congrArg (·.statement) hu.maintenance, congrArg (·.index) hu.maintenance,
    congrArg (·.steps) hu.maintenance, ?_⟩
  -- an index without support is not chosen
  obtain ⟨choices, hchoices, hplans⟩ := takes_support h hchosen
  obtain ⟨restricted, hleft, rfl⟩ := Option.map_eq_some_iff.mp (hsupport.symm.trans hchoices)
  obtain ⟨costs, hcosts, rfl, -⟩ := supportOver_eq_some_iff.mp hleft
  have hmem := mem_plans_of_takes hplans fun c hc => (h.support _ hchoices c hc).2
  rw [map_snd_labels] at hmem
  exact ⟨costs, hcosts, answers_of_supportOver hpart hover hcosts hmem⟩

/-- **NO UPDATE PLAN IS LOST**: the update plans that are read back are those of the entries whose
    index is chosen, in order. -/
theorem forall₂_updatePlans (entries : List (MaintenanceCosts Rat × Nat)) :
    ∀ next, (∀ t ∈ entries, IsEntryOver indexes t.1) →
      (∀ u ∈ upkeepOf (candidates.map (·.key)) next entries, Maintains candidates a.value u) →
      List.Forall₂ (IsUpkeptBy (chosenBy candidates a.value))
        ((entries.map (·.1)).filter fun e =>
          isChosen (chosenBy candidates a.value) e.maintenance.index)
        (((upkeepOf (candidates.map (·.key)) next entries).filter fun u =>
          a.value u.index).map (updatePlanOf a)) := by
  induction entries with
  | nil => intro next _ _; exact .nil
  | cons t entries ih =>
      obtain ⟨e, n⟩ := t
      intro next hover h
      have hfirst : IsEntryOver indexes e := hover _ List.mem_cons_self
      have hrest : ∀ t ∈ entries, IsEntryOver indexes t.1 :=
        fun t ht => hover t (List.mem_cons_of_mem _ ht)
      have hcons : ((e, n) :: entries).map (·.1) = e :: entries.map (·.1) := rfl
      rw [hcons, List.filter_cons]
      rcases upkeepOf_cons candidates next e n entries with ⟨hv, hupkeep⟩ | ⟨u, hu, hupkeep⟩
      · rw [hupkeep] at h ⊢
        rw [isChosen_chosenBy_of_not_mem hpart hfirst.index (variableOf?_eq_none_iff.mp hv),
          if_neg Bool.false_ne_true]
        exact ih next hrest h
      · rw [hupkeep] at h ⊢
        have hlater := ih _ hrest fun w hw => h w (List.mem_cons_of_mem _ hw)
        rw [isChosen_chosenBy hpart hfirst.index hu.index, List.filter_cons]
        cases hchosen : a.value u.index with
        | false => exact hlater
        | true =>
            exact .cons (isUpkeptBy_of_maintains hpart hfirst hu (h u List.mem_cons_self) hchosen)
              hlater

end Entries

/-! ## The design -/

/-- A design of candidates with a plan over them for each query, and with an update plan for each
    entry whose index is chosen and for no other. -/
structure IsReadFrom (indexes : List Index) (queries : List (StatementCosts Rat))
    (maintenance : List (MaintenanceCosts Rat)) (budget : Option Rat) (r : Design Rat) :
    Prop where
  indexes : r.indexes.Sublist (Index.pool indexes)
  plans : List.Forall₂ (Answers r.indexes) queries r.plans
  updates : List.Forall₂ (IsUpkeptBy r.indexes)
    (maintenance.filter fun e => isChosen r.indexes e.maintenance.index) r.updates
  sameBudget : r.budget = budget
  fits : ∀ b, budget = some b → r.totalSize ≤ b + Scalar.tolerance

/-- **READING BACK SUCCEEDS**: feasible values of a presolved problem are read back as a design
    of it. -/
theorem designOf_eq_ok {indexes candidates : List Index} {queries : List (StatementCosts Rat)}
    {maintenance : List (MaintenanceCosts Rat)} {budget : Option Rat} {kept : List Index}
    {restricted : List (StatementCosts Rat)} (hdistinct : Index.KeysDistinct indexes)
    (hquery : ∀ c ∈ queries, ∀ p ∈ c.plans, ∀ i ∈ p.lookedUp, IsCandidate indexes i)
    (hentry : ∀ e ∈ maintenance, IsEntryOver indexes e)
    (hpresolved : IsPresolved (Index.pool indexes) queries maintenance budget kept restricted
      candidates)
    (h : (restrictTo candidates restricted maintenance budget).program.isFeasible a.values
      = true) :
    ∃ r, (restrictTo candidates restricted maintenance budget).designOf a = .ok r
      ∧ IsReadFrom indexes queries maintenance budget r := by
  have hsub := hpresolved.candidatesSublist.trans hpresolved.sublist
  have hpart : IsPartOf candidates indexes := isPartOf_of_sublist hdistinct hsub
  have hsolves : (restrictTo candidates restricted maintenance budget).withSlack.Solves a.value :=
    solves_of_isFeasible h
  obtain ⟨plans, hplansOf, htakes⟩ := plansOf_eq_ok fun c hc => (hsolves.query c hc).1
  have hread : (restrictTo candidates restricted maintenance budget).plansOf a = .ok plans :=
    hplansOf
  have hplans := mem_plans_of_takes htakes fun c hc => (hsolves.query c hc).2
  rw [map_snd_labelled] at hplans
  have hupdates := forall₂_updatePlans hpart maintenance.zipIdx _
    (fun t ht => hentry _ (List.fst_mem_of_mem_zipIdx ht)) hsolves.upkeep
  rw [List.zipIdx_map_fst] at hupdates
  refine ⟨⟨chosenBy candidates a.value, plans,
    (restrictTo candidates restricted maintenance budget).updatePlansOf a, budget,
    a.objective⟩, ?_, ?_⟩
  · rw [designOf, hread]
    rfl
  · refine ⟨chosenBy_sublist.trans hsub, answers_of_isPresolved hpart hpresolved hquery hplans,
      hupdates, rfl, ?_⟩
    rintro b rfl
    refine le_trans (le_of_eq ?_) (hsolves.fits _ rfl)
    rw [Design.totalSize, Scalar.sum_rat]
    rfl

end SelectionProblem

end IndexDesign
