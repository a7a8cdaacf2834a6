import IndexDesign.Proofs.Selection.Origin

/-! # Asking for the plan of a query

    A design has a plan for each query of its workload, and its check tells the
    queries apart by their handles.  Asking for the plan of a query accepts a
    plan whose query has the same handle or the same text, and the first plan
    that is accepted is the answer.  A query has the text of itself, so its
    handle never decides: the answer is the plan of the first query with the
    text, and that is another one where a query before it is titled alike. -/

namespace IndexDesign

open ZeroOne

variable {α : Type} [Scalar α]

/-! ## Plans of the queries -/

namespace SelectionProblem

omit [Scalar α] in
/-- The plans that are left of costs are plans of them. -/
def ArePartOf (c left : StatementCosts α) : Prop := ∀ plan ∈ left.plans, plan ∈ c.plans

theorem forall₂_of_withinBudget {config : SelectionConfig α} {pool kept : List Index}
    {queries left : List (StatementCosts α)}
    (h : withinBudget config pool queries = .ok (kept, left)) :
    List.Forall₂ ArePartOf queries left := by
  have hsame : List.Forall₂ ArePartOf queries queries :=
    List.forall₂_same.mpr fun _ _ _ hplan => hplan
  simp only [withinBudget] at h
  split at h
  · split at h
    · cases h
    · obtain ⟨-, rfl⟩ := Prod.mk.inj (Except.ok.inj h)
      rw [List.forall₂_map_right_iff]
      exact List.forall₂_same.mpr fun c _ plan hplan => (List.mem_filter.mp hplan).1
  · obtain ⟨-, rfl⟩ := Prod.mk.inj (Except.ok.inj h)
    exact hsame

/-- The choices of a problem are among the plans of the costs for which it was built. -/
theorem forall₂_of_build {indexes : List Index} {queries : List (StatementCosts α)}
    {maintenance : List (MaintenanceCosts α)} {config : SelectionConfig α}
    {problem : SelectionProblem α} (h : build indexes queries maintenance config = .ok problem) :
    List.Forall₂ (fun c choice => ∀ plan ∈ choice.plans, plan ∈ c.plans) queries
      problem.queries := by
  obtain ⟨⟨kept, left⟩, hwithin, h⟩ := exists_of_bind_eq_ok h
  obtain rfl := Except.ok.inj h
  have hlabels := forall₂_of_withinBudget hwithin
  rw [← map_snd_labels (fun n => s!"q{n}") left, List.forall₂_map_right_iff] at hlabels
  refine (forall₂_trans hlabels (Choice.forall₂_number _ _).flip).imp ?_
  rintro c choice ⟨t, hpart, hplans⟩ plan hplan
  exact hpart plan (hplans ▸ hplan)

omit [Scalar α] in
theorem mem_plans_of_selected? {c : Choice α} {a : Assignment α} {plan : Plan α}
    (h : c.selected? a = some plan) : plan ∈ c.plans := by
  obtain ⟨⟨found, v⟩, hfound, rfl⟩ := Option.map_eq_some_iff.mp h
  exact List.fst_mem_of_mem_zipIdx (List.mem_of_find?_eq_some hfound)

/-- What a solver finds is checked before it is returned. -/
theorem spec_of_solve {problem : SelectionProblem α} {solver : Solver α} {r : Design α}
    (h : problem.solve solver = .ok r) :
    List.Forall₂ (fun c plan => plan ∈ c.plans) problem.queries r.plans ∧ r.fault? = none := by
  simp only [solve] at h
  split at h
  · cases h
  · cases h
  · next a ha =>
    obtain ⟨found, hdesign, h⟩ := exists_of_bind_eq_ok h
    obtain ⟨⟨⟩, hvalid, h⟩ := exists_of_bind_eq_ok h
    obtain rfl := Except.ok.inj h
    obtain ⟨plans, hplans, hdesign⟩ := exists_of_bind_eq_ok hdesign
    constructor
    · rw [← Except.ok.inj hdesign]
      refine ((mapM_eq_ok_iff _ _).mp hplans).imp fun c plan hplan => ?_
      split at hplan
      · next selected hselected =>
        rw [← Except.ok.inj hplan]
        exact mem_plans_of_selected? hselected
      · cases hplan
    · simp only [Design.validate] at hvalid
      split at hvalid
      · cases hvalid
      · assumption

end SelectionProblem

namespace Designer

variable [Rendered α] {d : Designer α} {solver : Solver α} {r : Design α}

theorem plans_of_costs {queries : List (StatementCosts α)}
    {maintenance : List (MaintenanceCosts α)} (h : d.costs = .ok (queries, maintenance)) :
    List.Forall₂ (fun q c => ∀ plan ∈ c.plans, d.planner.IsPlanOf q plan) d.workload.queries
      queries := by
  obtain ⟨found, hqueries, h⟩ := exists_of_bind_eq_ok h
  obtain ⟨entries, -, h⟩ := exists_of_bind_eq_ok h
  obtain ⟨rfl, -⟩ := Prod.mk.inj (Except.ok.inj h)
  have hall := (mapM_eq_ok_iff _ _).mp hqueries
  rw [trees, List.forall₂_map_left_iff] at hall
  refine hall.imp fun q c hc plan hplan => ?_
  obtain ⟨tree, htree, hc⟩ := exists_of_bind_eq_ok hc
  exact ⟨tree, htree, StatementCosts.mem_plans_of_ofTree hc hplan⟩

/-- **EVERY QUERY HAS A PLAN OF ITS OWN**, whatever the solver and whatever the keys of the
    candidates; and the design breaks no rule. -/
theorem plans_of_designWith (h : d.designWith solver = .ok r) :
    List.Forall₂ d.planner.IsPlanOf d.workload.queries r.plans ∧ r.fault? = none := by
  obtain ⟨problem, hproblem, h⟩ := exists_of_bind_eq_ok h
  obtain ⟨⟨queries, maintenance⟩, hcosts, hproblem⟩ := exists_of_bind_eq_ok hproblem
  obtain ⟨hselected, hvalid⟩ := SelectionProblem.spec_of_solve (ok_of_mapError h)
  refine ⟨?_, hvalid⟩
  have hleft := forall₂_trans (plans_of_costs (ok_of_mapError hcosts))
    (SelectionProblem.forall₂_of_build (ok_of_mapError hproblem))
  refine (forall₂_trans hleft hselected).imp ?_
  rintro q plan ⟨choice, ⟨c, hof, hpart⟩, hplan⟩
  exact hof plan (hpart plan hplan)

end Designer

/-! ## Telling queries apart -/

namespace Design

variable {r : Design α} {queries : List (Query α)} {q : Query α}

omit [Scalar α] in
/-- Plans that break no rule are for queries of different handles. -/
theorem handles_of_planFault? {plans : List (Plan α)} : ∀ before : List (Plan α),
    r.planFault? before plans = none →
      (∀ p ∈ before, ∀ p' ∈ plans, p.query.handle ≠ p'.query.handle)
        ∧ plans.Pairwise fun p p' => p.query.handle ≠ p'.query.handle := by
  induction plans with
  | nil =>
      intro before _
      exact ⟨fun _ _ _ h => absurd h List.not_mem_nil, List.Pairwise.nil⟩
  | cons plan rest ih =>
      intro before h
      simp only [planFault?] at h
      split at h
      · cases h
      · next hfresh =>
        obtain ⟨hlater, hpairwise⟩ := ih (plan :: before) (Option.or_eq_none_iff.mp h).2
        obtain ⟨hplan, hbefore⟩ := List.forall_mem_cons.mp hlater
        refine ⟨fun p hp => List.forall_mem_cons.mpr ⟨fun hsame => ?_, hbefore p hp⟩,
          List.Pairwise.cons hplan hpairwise⟩
        exact hfresh (List.any_eq_true.mpr ⟨p, hp, beq_iff_eq.mpr hsame⟩)

theorem nodup_handles_of_fault? (h : r.fault? = none) :
    (r.plans.map (·.query.handle)).Nodup := by
  simp only [fault?, Option.or_eq_none_iff] at h
  exact List.pairwise_map.mpr (handles_of_planFault? [] h.1.2).2

omit [Scalar α] in
/-- **HANDLES NEVER DECIDE**: for a query of the workload, the plan that is found is the first one
    for a query with its text. -/
theorem planFor?_eq (hqueries : r.plans.map (·.query) = queries)
    (hhandles : (r.plans.map (·.query.handle)).Nodup) (hq : q ∈ queries) :
    r.planFor? q = r.plans.find? (·.query.text == q.text) := by
  refine List.find?_congr fun p hp => ?_
  by_cases hhandle : p.query.handle = q.handle
  · rw [← hqueries] at hq
    obtain ⟨own, hown, rfl⟩ := List.mem_map.mp hq
    -- only the plan of the query itself has its handle, and that has its text
    rw [List.inj_on_of_nodup_map hhandles hp hown hhandle, beq_self_eq_true, beq_self_eq_true,
      Bool.or_self]
  · rw [beq_eq_false_iff_ne.mpr hhandle, Bool.false_or]

omit [Scalar α] in
/-- The plan that is found stands where the first query with the text does. -/
theorem exists_planFor? (hqueries : r.plans.map (·.query) = queries)
    (hhandles : (r.plans.map (·.query.handle)).Nodup) (hq : q ∈ queries) :
    ∃ j found, queries.findIdx? (·.text == q.text) = some j ∧ r.plans[j]? = some found
      ∧ r.planFor? q = some found := by
  have hfirst : (queries.findIdx? (·.text == q.text)).isSome = true := by
    rw [List.findIdx?_isSome]
    exact List.any_eq_true.mpr ⟨q, hq, beq_self_eq_true _⟩
  obtain ⟨j, hj⟩ := Option.isSome_iff_exists.mp hfirst
  have hplan : r.plans.findIdx? (·.query.text == q.text) = some j := by
    rw [← hj, ← hqueries, List.findIdx?_map]
    rfl
  obtain ⟨hlt, -⟩ := List.findIdx?_eq_some_iff_getElem.mp hplan
  refine ⟨j, r.plans[j], hj, List.getElem?_eq_getElem hlt, ?_⟩
  rw [planFor?_eq hqueries hhandles hq, List.find?_eq_bind_findIdx?_getElem?, hplan,
    Option.bind_some, List.getElem?_eq_getElem hlt]

end Design

/-- The first element that passes a test stands at a position where it passes and none does
    before. -/
theorem findIdx?_eq_iff_take {β : Type} {xs : List β} {test : β → Bool} {i j : Nat} {x : β}
    (hi : xs[i]? = some x) (hx : test x = true) (hj : xs.findIdx? test = some j) :
    j = i ↔ ∀ y ∈ xs.take i, test y = false := by
  obtain ⟨hlt, htest, hbefore⟩ := List.findIdx?_eq_some_iff_getElem.mp hj
  obtain ⟨hlen, hget⟩ := List.getElem?_eq_some_iff.mp hi
  constructor
  · rintro rfl y hy
    obtain ⟨k, hk, rfl⟩ := List.mem_take_iff_getElem.mp hy
    exact Bool.eq_false_iff.mpr (hbefore k (by omega))
  · intro hnone
    rcases Nat.lt_trichotomy j i with hless | heq | hmore
    · have hmem : xs[j] ∈ xs.take i := List.mem_take_iff_getElem.mpr ⟨j, by omega, rfl⟩
      rw [hnone _ hmem] at htest
      cases htest
    · exact heq
    · exact absurd (hget ▸ hx) (hbefore i hmore)

namespace Designer

variable [Rendered α] {d : Designer α} {solver : Solver α} {r : Design α}

/-- **PLANS ARE FOUND BY TEXT**: a design that is returned has a plan of its own for each query of
    the workload.  Asked for the plan of a query, it answers with that of the first query which
    has the text, so with the query's own plan exactly where no query before it is titled
    alike. -/
theorem planFor?_eq_own_iff (h : d.designWith solver = .ok r) :
    ∀ (i : Nat) (q : Query α), d.workload.queries[i]? = some q →
      ∃ own found, r.plans[i]? = some own ∧ d.planner.IsPlanOf q own ∧ own.query = q
        ∧ r.planFor? q = some found
        ∧ (∃ j, d.workload.queries.findIdx? (·.text == q.text) = some j
          ∧ r.plans[j]? = some found ∧ d.workload.queries[j]? = some found.query)
        ∧ (found = own ↔ ∀ earlier ∈ d.workload.queries.take i, earlier.text ≠ q.text) := by
  obtain ⟨hplans, hvalid⟩ := plans_of_designWith h
  have hhandles := Design.nodup_handles_of_fault? hvalid
  have hqueries : r.plans.map (·.query) = d.workload.queries := by
    rw [← List.forall₂_eq_eq_eq, List.forall₂_map_left_iff]
    exact (hplans.imp fun _ _ hplan => hplan.query_eq).flip
  have hget : ∀ (k : Nat) (plan : Plan α), r.plans[k]? = some plan →
      d.workload.queries[k]? = some plan.query := by
    intro k plan hplan
    rw [← hqueries, List.getElem?_map, hplan, Option.map_some]
  intro i q hq
  obtain ⟨own, hown, rfl⟩ : ∃ own, r.plans[i]? = some own ∧ own.query = q := by
    rwa [← hqueries, List.getElem?_map, Option.map_eq_some_iff] at hq
  obtain ⟨q, -, hof⟩ := exists_of_forall₂_right hplans (List.mem_of_getElem? hown)
  obtain ⟨j, found, hfirst, hfound, hanswer⟩ :=
    Design.exists_planFor? hqueries hhandles (List.mem_of_getElem? hq)
  refine ⟨own, found, hown, hof.query_eq ▸ hof, rfl, hanswer,
    ⟨j, hfirst, hfound, hget j found hfound⟩, ?_⟩
  -- plans for queries of different handles are different
  have hnodup : r.plans.Nodup := List.Nodup.of_map _ hhandles
  have hsame : found = own ↔ j = i := by
    have hlt := (List.getElem?_eq_some_iff.mp hfound).1
    rw [← List.getElem?_inj hlt hnodup, hfound, hown, Option.some_inj]
  rw [hsame, findIdx?_eq_iff_take hq (beq_self_eq_true own.query.text) hfirst]
  exact forall₂_congr fun earlier _ => beq_eq_false_iff_ne

/-! ## Two queries of one title

    The names of a city's users are asked for, and the age of a user.  Both
    queries have the same text. -/

def userAgeDraft : Query.Draft Rat :=
  { Planner.namesDraft with
    select := ["user.age"]
    eq := ["user.id"]
    range := []
    orderBy := []
    weight := 2 }

def userAgeQuery : Query Rat :=
  { Planner.namesQuery with
    select := SortedSet.ofList [Planner.userAge]
    eq := SortedSet.ofList [Planner.userId]
    range := ∅
    orderBy := []
    weight := 2 }

def titledAlike : Workload Rat :=
  ((Workload.ofModel Planner.userModel).add (.read Planner.namesQuery)).add (.read userAgeQuery)

/-- The first query is answered with its own plan and the second is not. -/
theorem planFor?_eq_own_iff_titledAlike :
    ∃ r, (ofIndexes titledAlike [Planner.cityIndex, userByIdIndex] .requestCount {}
        .standard).design = .ok r
      ∧ (∃ own, r.plans[0]? = some own ∧ r.planFor? own.query = some own)
      ∧ ∃ own found, r.plans[1]? = some own ∧ r.planFor? own.query = some found ∧ found ≠ own := by
  have hdesigned : (ofIndexes titledAlike [Planner.cityIndex, userByIdIndex]
      (.requestCount : CostModel Rat) {} .standard).design.toOption.isSome = true := by
    decide +kernel
  obtain ⟨r, hr⟩ := Option.isSome_iff_exists.mp hdesigned
  have hok := Planner.toOption_eq_some_iff.mp hr
  have hsolved : (ofIndexes titledAlike [Planner.cityIndex, userByIdIndex]
      (.requestCount : CostModel Rat) {} .standard).designWith
        (BranchAndBound.ofLimit (SelectionConfig.standard : SelectionConfig Rat).maxNodes).solve
      = .ok r := hok
  have hfound := planFor?_eq_own_iff hsolved
  refine ⟨r, hok, ?_, ?_⟩
  · obtain ⟨own, found, hown, -, hquery, hanswer, -, hiff⟩ := hfound 0 _ rfl
    obtain rfl := hiff.mpr fun earlier hearlier => absurd hearlier List.not_mem_nil
    exact ⟨found, hown, by rw [hquery, hanswer]⟩
  · obtain ⟨own, found, hown, -, hquery, hanswer, -, hiff⟩ := hfound 1 _ rfl
    refine ⟨own, found, hown, by rw [hquery, hanswer], fun hsame => ?_⟩
    exact hiff.mp hsame _ List.mem_cons_self rfl

/-- Asked for the plan of the second query, the design answers with that of the first, which has
    another weight. -/
theorem titledAlike_shadowed :
    Query.build Planner.userModel Planner.namesDraft = .ok Planner.namesQuery
      ∧ Query.build Planner.userModel userAgeDraft = .ok userAgeQuery
      ∧ titledAlike.queries[1]? = some { userAgeQuery with handle := 2 }
      ∧ ∃ r own found, (ofIndexes titledAlike [Planner.cityIndex, userByIdIndex] .requestCount {}
          .standard).design = .ok r
        ∧ r.plans[1]? = some own ∧ own.query.handle = 2 ∧ own.query.weight = 2
        ∧ r.planFor? { userAgeQuery with handle := 2 } = some found
        ∧ found.query.handle = 1 ∧ found.query.weight = 1 := by
  have hdesigned : (ofIndexes titledAlike [Planner.cityIndex, userByIdIndex]
      (.requestCount : CostModel Rat) {} .standard).design.toOption.any (fun r =>
        r.plans[1]?.any (fun own => own.query.handle == 2 && own.query.weight == 2)
          && (r.planFor? { userAgeQuery with handle := 2 }).any fun found =>
            found.query.handle == 1 && found.query.weight == 1) = true := by
    decide +kernel
  obtain ⟨r, hr, hfacts⟩ := (Option.any_eq_true _ _).mp hdesigned
  simp only [Bool.and_eq_true, Option.any_eq_true, beq_iff_eq] at hfacts
  obtain ⟨⟨own, hown, hhandle, hweight⟩, found, hfound, hother, hless⟩ := hfacts
  exact ⟨rfl, rfl, rfl, r, own, found, Planner.toOption_eq_some_iff.mp hr, hown, hhandle, hweight,
    hfound, hother, hless⟩

end Designer

end IndexDesign
