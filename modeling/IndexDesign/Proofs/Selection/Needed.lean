import IndexDesign.Proofs.Selection.Useless

/-! # No useless index is selected

    A design needs the indexes that the plans of its queries use, and with an
    index those that the plans in support of its maintenance use.

    The program knows indexes by their keys.  An answer of the solver has no
    variable that is not needed, so every index of a design has a key that is
    needed.  Where the keys of the candidates differ the index is needed itself.
    Where two candidates share a key they are selected together, and one of them
    may be useless. -/

namespace IndexDesign

open ZeroOne

namespace Design

variable {r : Design Rat}

/-- The indexes that the plans of queries use, and with each of them those that the plans in
    support of its maintenance use, and no others. -/
inductive Needs (r : Design Rat) : Index → Prop
  | query {p : Plan Rat} {i : Index} : p ∈ r.plans → i ∈ p.indexes → Needs r i
  | support {u : UpdatePlan Rat} {p : Plan Rat} {i : Index} : u ∈ r.updates → Needs r u.index →
      p ∈ u.support → i ∈ p.indexes → Needs r i

/-- The keys of the indexes that the plans of queries use, and with the key of an index those of
    the indexes that the plans in support of its maintenance use, and no others. -/
inductive NeedsKey (r : Design Rat) : String → Prop
  | query {p : Plan Rat} {i : Index} : p ∈ r.plans → i ∈ p.indexes → NeedsKey r i.key
  | support {u : UpdatePlan Rat} {p : Plan Rat} {i : Index} : u ∈ r.updates →
      NeedsKey r u.index.key → p ∈ u.support → i ∈ p.indexes → NeedsKey r i.key

end Design

namespace Designer

open SelectionProblem (mem_chosenBy updatePlanOf variableOf? getElem?_of_variableOf?)

variable {w : Workload Rat} {indexes : List Index} {costs : CostModel Rat}
  {planning : PlanningConfig Rat} {selection : SelectionConfig Rat} {d : Designer Rat}
  {problem : SelectionProblem Rat} {a : Assignment Rat} {r : Design Rat}

/-- The keys of the variables that the values need are keys that the design needs. -/
theorem needsKey_of_needs (h : problem.IsReadBack a r) (hposed : d.IsPosedBy problem) {v : Nat}
    (hneeds : problem.withSlack.Needs a.value v) :
    ∀ key, variableOf? (problem.indexes.map (·.key)) key = some v → r.NeedsKey key := by
  have hsame : ∀ {v : Nat} {key key' : String},
      variableOf? (problem.indexes.map (·.key)) key = some v →
      variableOf? (problem.indexes.map (·.key)) key' = some v → key = key' := fun hv hv' =>
    Option.some.inj ((getElem?_of_variableOf? hv).symm.trans (getElem?_of_variableOf? hv'))
  induction hneeds with
  | @query c p k v hc htakes hk hv =>
      intro key hkey
      obtain ⟨q, -, hplans⟩ := hposed.query c hc
      have hplan := (hplans p (Choice.mem_plans_of_takes htakes)).1
      obtain ⟨read, hmem, hread⟩ := exists_of_forall₂_left h.plans hc
      obtain rfl := Choice.takes_unique htakes hread
      rw [hsame hkey hv]
      exact .query hmem (by rwa [hplan.indexes_eq])
  | @support u c p k v hu hneeds hc htakes hk hv ih =>
      intro key hkey
      obtain ⟨t, ht, hmaintenance, hindex, hsupport⟩ := hposed.upkeep u hu
      obtain ⟨queries, -, q, -, hplans⟩ := hsupport c hc
      have hplan := (hplans p (Choice.mem_plans_of_takes htakes)).1
      -- the update plan of the entry is read back, with the plan that supports it
      have hread : updatePlanOf a u ∈ r.updates := by
        rw [h.updates]
        exact List.mem_map_of_mem (List.mem_filter.mpr ⟨hu, hneeds.chosen h.solves⟩)
      have hmem : p ∈ (updatePlanOf a u).support :=
        List.mem_filterMap.mpr ⟨c, hc, Choice.selected?_of_takes htakes⟩
      have hmaintains : (updatePlanOf a u).index = t.2 := by
        rw [updatePlanOf, hmaintenance]
        rfl
      have hneeded : r.NeedsKey (updatePlanOf a u).index.key := by
        rw [hmaintains]
        exact ih t.2.key hindex
      rw [hsame hkey hv]
      exact .support hread hneeded hmem (by rwa [hplan.indexes_eq])

/-- Where the keys of the candidates differ, the selected index of a key that is needed is
    needed. -/
theorem needs_of_needsKey (hkeys : (d.planner.pool.map (·.key)).Nodup) (h : d.IsRealizedBy r)
    {key : String} (hneeds : r.NeedsKey key) : ∀ i ∈ r.indexes, i.key = key → r.Needs i := by
  have hsame : ∀ i ∈ r.indexes, ∀ j ∈ r.indexes, i.key = j.key → i = j := fun i hi j hj =>
    List.inj_on_of_nodup_map hkeys (h.indexes.subset hi) (h.indexes.subset hj)
  induction hneeds with
  | @query p j hp hj =>
      intro i hi hkey
      obtain ⟨q, -, hplan⟩ := exists_of_forall₂_right h.plans hp
      rw [hsame i hi j (hplan.2 j hj) hkey]
      exact .query hp hj
  | @support u p j hu _ hp hj ih =>
      intro i hi hkey
      obtain ⟨t, ht, hupdate⟩ := exists_of_forall₂_right h.updates hu
      obtain ⟨queries, -, hsupport⟩ := hupdate.support
      obtain ⟨q, -, hplan⟩ := exists_of_forall₂_right hsupport hp
      rw [hsame i hi j (hplan.2 j hj) hkey]
      refine .support hu (ih u.index ?_ rfl) hp hj
      rw [hupdate.index]
      exact (mem_of_mem_modifications ht).2

/-- **NO USELESS INDEX IS SELECTED**: where no variable of the program has a negative objective,
    every index of a design has a key that the design needs, whatever its budget is and wherever
    the search was cut off.  Where the keys of the candidates differ, every index of the design
    is needed. -/
theorem needs_of_mem_indexes (hproblem : (ofIndexes w indexes costs planning selection).problem
      = .ok problem) (hnonneg : ∀ x ∈ problem.program.vars, 0 ≤ x.objective)
    (h : (ofIndexes w indexes costs planning selection).design = .ok r) :
    (∀ i ∈ r.indexes, r.NeedsKey i.key)
      ∧ (Index.KeysDistinct indexes → ∀ i ∈ r.indexes, r.Needs i) := by
  obtain ⟨posed, a, hposes, hsolve, hread⟩ := exists_of_design_eq_ok h
  obtain rfl : problem = posed := Except.ok.inj (hproblem.symm.trans hposes)
  have hposed := isPosedBy_of_problem hproblem
  have hall : ∀ i ∈ r.indexes, r.NeedsKey i.key := by
    intro i hi
    rw [hread.indexes] at hi
    obtain ⟨-, v, hv, htrue⟩ := mem_chosenBy.mp hi
    have hlt : v < problem.indexes.length := by
      have hlt := SelectionProblem.lt_of_variableOf? hv
      rwa [List.length_map] at hlt
    have hneeds := SelectionProblem.needs_of_solve hposed.numbered hnonneg hsolve hlt htrue
    exact needsKey_of_needs hread hposed hneeds i.key hv
  refine ⟨hall, fun hkeys i hi => ?_⟩
  obtain ⟨hrealized, -⟩ := design_realizes hkeys costs planning selection h
  exact needs_of_needsKey (Index.nodup_keys_pool hkeys) hrealized (hall i hi) i hi rfl

/-- One index finds the names of a city's users, and the other one the rows to write in it when an
    age changes. -/
theorem needs_of_mem_indexes_birthday :
    ∃ problem r, (ofIndexes birthdayWorkload [Planner.cityIndex, userByIdIndex] .requestCount {}
        birthdayConfig).problem = .ok problem
      ∧ (∀ x ∈ problem.program.vars, 0 ≤ x.objective)
      ∧ (ofIndexes birthdayWorkload [Planner.cityIndex, userByIdIndex] .requestCount {}
          birthdayConfig).design = .ok r
      ∧ Index.KeysDistinct [Planner.cityIndex, userByIdIndex]
      ∧ r.indexes.length = 2 ∧ ∀ i ∈ r.indexes, r.NeedsKey i.key ∧ r.Needs i := by
  have hposed : (ofIndexes birthdayWorkload [Planner.cityIndex, userByIdIndex]
      (.requestCount : CostModel Rat) {} birthdayConfig).problem.toOption.any
        (·.program.vars.all fun x => decide (0 ≤ x.objective)) = true := by decide +kernel
  have hdesigned : (ofIndexes birthdayWorkload [Planner.cityIndex, userByIdIndex]
      (.requestCount : CostModel Rat) {} birthdayConfig).design.toOption.any
        (·.indexes.length == 2) = true := by decide +kernel
  obtain ⟨problem, hproblem, hall⟩ := Option.any_eq_true _ _ |>.mp hposed
  obtain ⟨r, hr, htwo⟩ := Option.any_eq_true _ _ |>.mp hdesigned
  have hok := Planner.toOption_eq_some_iff.mp hproblem
  have hdesign := Planner.toOption_eq_some_iff.mp hr
  have hnonneg : ∀ x ∈ problem.program.vars, 0 ≤ x.objective := fun x hx =>
    of_decide_eq_true (Array.all_eq_true'.mp hall x hx)
  obtain ⟨hkeys, hneeds⟩ := needs_of_mem_indexes hok hnonneg hdesign
  exact ⟨problem, r, hok, hnonneg, hdesign, keysDistinct_birthday, eq_of_beq htwo,
    fun i hi => ⟨hkeys i hi, hneeds keysDistinct_birthday i hi⟩⟩

/-! ### Two indexes of one key

    The descriptors of two indexes differ in one field, and their fingerprints
    are the same.  The index with the field that is asked for is needed; the
    other one is selected with it. -/

def letterId : Field := (Field.ofType "U" "I" .id).withCardinality 100

def letterA : Field := (Field.ofType "U" "A" (.string 10)).withCardinality 10

/-- The two fields with which descriptors have one fingerprint. -/
def letterField (name : String) : Field := (Field.ofType "U" name (.string 10)).withCardinality 10

def letterEntity : Entity :=
  ⟨"U", 100, letterId,
    SortedSet.ofList [letterId, letterA, letterField "a4uxgj12kzhgg", letterField "tjcru5khzh2yp"]⟩

def letterModel : Model := Model.empty.add letterEntity

def letterDraft : Query.Draft Rat where
  path := ["U"]
  select := ["U.a4uxgj12kzhgg"]
  eq := ["U.A"]
  range := []
  orderBy := []
  groupBy := []
  aggregates := []
  limit := none
  weight := 1
  text := some "letters"

def letterQuery : Query Rat where
  text := "letters"
  select := SortedSet.ofList [letterField "a4uxgj12kzhgg"]
  eq := SortedSet.ofList [letterA]
  range := ∅
  orderBy := []
  groupBy := ∅
  aggregates := ∅
  limit := none
  graph := JoinGraph.single letterEntity
  weight := 1
  handle := 0

def letterIndexDraft (name : String) : Index.Draft where
  graph := JoinGraph.single letterEntity
  partition := [letterA]
  ordered := [letterId]
  extra := [letterField name]
  aggregates := []
  groupBy := []

/-- The values of a field, by the first letter. -/
def letterIndex (name : String) : Index where
  partition := SortedSet.ofList [letterA]
  ordered := [letterId]
  extra := SortedSet.ofList [letterField name]
  aggregates := ∅
  groupBy := ∅
  graph := JoinGraph.single letterEntity

def letterDesigner : Designer Rat :=
  ofIndexes ((Workload.ofModel letterModel).add (.read letterQuery))
    [letterIndex "a4uxgj12kzhgg", letterIndex "tjcru5khzh2yp"] .requestCount {} .standard

/-- Both indexes are selected, and no plan uses one of them. -/
theorem letterIndexes_useless :
    Query.build letterModel letterDraft = .ok letterQuery
      ∧ (∀ name ∈ ["a4uxgj12kzhgg", "tjcru5khzh2yp"],
        Index.build (letterIndexDraft name) = .ok (letterIndex name))
      ∧ (letterIndex "a4uxgj12kzhgg").key = (letterIndex "tjcru5khzh2yp").key
      ∧ ∃ problem r, letterDesigner.problem = .ok problem
        ∧ (∀ x ∈ problem.program.vars, 0 ≤ x.objective)
        ∧ letterDesigner.design = .ok r
        ∧ ∃ i ∈ r.indexes, i.descriptor = (letterIndex "tjcru5khzh2yp").descriptor
          ∧ ¬ r.Needs i := by
  have hposed : letterDesigner.problem.toOption.any
      (·.program.vars.all fun x => decide (0 ≤ x.objective)) = true := by decide +kernel
  have hdesigned : letterDesigner.design.toOption.any (fun r =>
      r.indexes.any (·.descriptor == (letterIndex "tjcru5khzh2yp").descriptor)
        && r.updates.isEmpty
        && r.plans.all (·.indexes.all
          (·.descriptor != (letterIndex "tjcru5khzh2yp").descriptor))) = true := by
    decide +kernel
  obtain ⟨problem, hproblem, hall⟩ := (Option.any_eq_true _ _).mp hposed
  obtain ⟨r, hr, hread⟩ := (Option.any_eq_true _ _).mp hdesigned
  simp only [Bool.and_eq_true, List.any_eq_true, List.all_eq_true, List.isEmpty_iff, beq_iff_eq,
    bne_iff_ne] at hread
  obtain ⟨⟨⟨i, hi, hdescriptor⟩, hupdates⟩, hplans⟩ := hread
  have hbuilds : ∀ name ∈ ["a4uxgj12kzhgg", "tjcru5khzh2yp"],
      Index.build (letterIndexDraft name) = .ok (letterIndex name) := by
    intro name hname
    obtain rfl | hname := List.mem_cons.mp hname
    · rfl
    · rw [List.mem_singleton.mp hname]
      rfl
  refine ⟨rfl, hbuilds, by decide +kernel, problem, r,
    Planner.toOption_eq_some_iff.mp hproblem,
    fun x hx => of_decide_eq_true (Array.all_eq_true'.mp hall x hx),
    Planner.toOption_eq_some_iff.mp hr, i, hi, hdescriptor, ?_⟩
  intro hneeds
  cases hneeds with
  | query hp huses => exact hplans _ hp _ huses hdescriptor
  | support hu _ _ _ =>
      rw [hupdates] at hu
      exact nomatch hu

end Designer

end IndexDesign
