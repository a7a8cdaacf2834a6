import IndexDesign.Proofs.Plan.Room
import IndexDesign.Proofs.Statement.Build

/-! # The search enumerates the runs of a query

    The search lists every run of a query once.  Runs come depth first in the
    order of what a state is tried with: steps in memory first, then lookups in
    the order of the candidates' keys.  So of two runs the one comes first that
    takes the earlier step where they part.

    Every run keeps the rules for complete plans, which are asked of the tree
    afterwards: it groups by no more than the query does, since what an index
    may group by is taken out of the query's grouping, and it does nothing in
    memory once it has aggregated.  So these rules remove no plan. -/

namespace IndexDesign

variable {α : Type}

/-! ## The order of runs -/

/-- The place of a step among those that a state is tried with. -/
def Step.place (step : Step α) : Nat × List String :=
  match step.kind with
  | .filter .. => (0, [])
  | .sort _ => (1, [])
  | .limit _ => (2, [])
  | .aggregate .. => (3, [])
  | .lookup index _ => (4, key index)
  | _ => (5, [])

/-- The first transition is tried before the second. -/
def Transition.Precedes (a b : Transition α) : Prop :=
  a.step.place.1 < b.step.place.1
    ∨ a.step.place.1 = b.step.place.1 ∧ a.step.place.2 < b.step.place.2

theorem Transition.not_precedes_self (a : Transition α) : ¬ a.Precedes a := by
  rintro (h | ⟨-, h⟩)
  · exact Nat.lt_irrefl _ h
  · exact List.lt_irrefl _ h

/-- The first run comes before the second: it is tried before it where they part. -/
def ComesBefore (a b : List (Transition α)) : Prop := List.Lex Transition.Precedes a b

theorem not_comesBefore_self (run : List (Transition α)) : ¬ ComesBefore run run := by
  induction run with
  | nil => intro h; exact nomatch h
  | cons t run ih =>
      intro h
      cases h with
      | cons h => exact ih h
      | rel h => exact t.not_precedes_self h

namespace Planner

variable [Scalar α] {p : Planner α} {path : List (Step α)} {t next : Transition α} {q : Query α}

/-- The candidates come in the order of their keys. -/
def IsSorted (p : Planner α) : Prop := p.pool.Pairwise fun i j => key i < key j

theorem place_of_mem_lookups {x : Except Rejection (Transition α)} {index : Index}
    (hx : x = if ((path.filterMap (·.lookedUp?)).map (·.key)).contains index.key then
        .error .indexReused
      else Transition.lookup p.costs t.state
        ⟨path.findSome? (·.lookedUp?), t.step.isAggregating⟩ index)
    (hnext : x.toOption = some next) : next.step.place = (4, key index) := by
  rw [toOption_eq_some_iff.mp hnext] at hx
  split at hx
  · exact nomatch hx
  · obtain ⟨covered, hlookup⟩ := Transition.lookup_spec hx.symm
    rw [Step.place, hlookup.kind]

/-- Lookups come last, in the order of the candidates. -/
theorem pairwise_lookups (hsorted : p.IsSorted) (path : List (Step α)) (t : Transition α) :
    (p.lookups path t).Pairwise (fun x y => ∀ a, x.toOption = some a → ∀ b,
        y.toOption = some b → a.Precedes b)
      ∧ ∀ x ∈ p.lookups path t, ∀ a, x.toOption = some a → a.step.place.1 = 4 := by
  unfold lookups
  dsimp only
  split
  · refine ⟨List.pairwise_singleton _ _, ?_⟩
    intro x hx a ha
    rw [List.mem_singleton.mp hx] at ha
    exact nomatch ha
  · constructor
    · refine List.pairwise_map.mpr (List.Pairwise.imp ?_ (hsorted.sublist List.filter_sublist))
      intro i j hlt a ha b hb
      refine .inr ?_
      rw [place_of_mem_lookups rfl ha, place_of_mem_lookups rfl hb]
      exact ⟨rfl, hlt⟩
    · intro x hx a ha
      obtain ⟨index, -, rfl⟩ := List.mem_map.mp hx
      rw [place_of_mem_lookups rfl ha]

/-- The steps in memory that a state is tried with, each with its place. -/
def inMemory (p : Planner α) (t : Transition α) : List (Nat × Except Rejection (Transition α)) :=
  [(0, Transition.filter p.costs t.state), (1, Transition.sort p.costs t.state),
    (2, Transition.limit p.costs t.state), (3, Transition.aggregate p.costs t.state)]

theorem place_of_mem_inMemory {x : Nat × Except Rejection (Transition α)}
    (hx : x ∈ p.inMemory t) (hnext : x.2.toOption = some next) : next.step.place.1 = x.1 := by
  have hok := toOption_eq_some_iff.mp hnext
  rcases List.mem_cons.mp hx with rfl | hx
  · rw [Step.place, (Transition.filter_spec hok).2.2.1]
  · rcases List.mem_cons.mp hx with rfl | hx
    · rw [Step.place, (Transition.sort_spec hok).2.2.2.2.1]
    · rcases List.mem_cons.mp hx with rfl | hx
      · obtain ⟨-, limit, -, -, -, hkind, -⟩ := Transition.limit_spec hok
        rw [Step.place, hkind]
      · rw [List.mem_singleton.mp hx] at hok ⊢
        rw [Step.place, (Transition.aggregate_spec hok).2.2.2.1]

/-- The successors of a state come in their order. -/
theorem pairwise_successors (hsorted : p.IsSorted) :
    (p.successors path t).Pairwise Transition.Precedes := by
  obtain ⟨hlookups, hfour⟩ := pairwise_lookups hsorted path t
  have hplaces : (p.inMemory t).Pairwise fun x y => x.1 < y.1 := by simp [inMemory]
  have hless : ∀ x ∈ p.inMemory t, x.1 < 4 := by simp [inMemory]
  have hattempts : p.attempts path t = (p.inMemory t).map (·.2) ++ p.lookups path t := rfl
  unfold successors
  rw [hattempts, List.pairwise_filterMap, List.pairwise_append]
  refine ⟨?_, hlookups, ?_⟩
  · refine List.pairwise_map.mpr (hplaces.imp_of_mem ?_)
    intro x y hx hy hlt a ha b hb
    refine .inl ?_
    rw [place_of_mem_inMemory hx ha, place_of_mem_inMemory hy hb]
    exact hlt
  -- a step in memory comes before every lookup
  · intro x hx y hy a ha b hb
    refine .inl ?_
    obtain ⟨z, hz, rfl⟩ := List.mem_map.mp hx
    rw [place_of_mem_inMemory hz ha, hfour y hy b hb]
    exact hless z hz

/-- **THE ORDER OF THE SEARCH**: what it finds comes in the order of runs. -/
theorem pairwise_continuations (hsorted : p.IsSorted) (length : Nat) :
    ∀ path t, (continuations t (p.explore length path t).branches).Pairwise ComesBefore := by
  induction length with
  | zero =>
      intro path t
      cases hanswered : t.state.isAnswered with
      | true =>
          rw [continuations_of_answered hanswered]
          exact List.pairwise_singleton _ _
      | false =>
          rw [continuations_of_unanswered hanswered]
          exact .nil
  | succ length ih =>
      intro path t
      cases hanswered : t.state.isAnswered with
      | true =>
          rw [continuations_of_answered hanswered]
          exact List.pairwise_singleton _ _
      | false =>
          rw [continuations_of_not_answered hanswered]
          refine List.pairwise_flatMap.mpr ⟨?_, ?_⟩
          -- two runs through one transition part later
          · intro next _
            refine List.pairwise_map.mpr ((ih (next.step :: path) next).imp ?_)
            intro a b hab
            exact List.Lex.cons hab
          -- two runs through different ones part here
          · refine (pairwise_successors hsorted).imp ?_
            intro a b hab x hx y hy
            obtain ⟨xs, -, rfl⟩ := List.mem_map.mp hx
            obtain ⟨ys, -, rfl⟩ := List.mem_map.mp hy
            exact List.Lex.rel hab

/-! ## Runs keep the rules for plans -/

/-- What one step does to the grouping: an index groups by a part of what is left, the state
    knows whether something has aggregated, and then nothing is done in memory. -/
structure KeepsRules (t next : Transition α) : Prop where
  query : next.state.query = t.state.query
  groupBy : ∀ f, f ∈ next.state.groupBy → f ∈ t.state.groupBy
  lookedUp : ∀ index, next.step.lookedUp? = some index → ∀ f, f ∈ index.groupBy →
    f ∈ t.state.groupBy
  aggregated : next.state.aggregated = (t.state.aggregated || next.step.isAggregating)
  inMemory : t.state.aggregated = true →
    ∃ index lookups, next.step.kind = .lookup index lookups

theorem keepsRules_of_follows (h : p.Follows path t next) : KeepsRules t next := by
  rcases isInMemory_or_isLookup h with hmemory | ⟨index, -, covered, hlookup⟩
  · refine ⟨hmemory.query, hmemory.groupBy, ?_, ?_, ?_⟩
    · intro index hindex
      rw [hmemory.lookedUp] at hindex
      exact nomatch hindex
    · rw [hmemory.aggregated, hmemory.before, Bool.false_or]
    · intro htrue
      rw [hmemory.before] at htrue
      exact nomatch htrue
  · obtain ⟨graph, joins, rows, lookups, hafter⟩ := t.state.afterLookup_eq index covered
    have hstate := hlookup.state.trans hafter
    refine ⟨by rw [hstate], fun f hf => ?_, ?_, ?_, ?_⟩
    · rw [hstate] at hf
      dsimp only at hf
      split at hf
      · exact (SortedSet.mem_diff.mp hf).1
      · exact hf
    · intro i hi f hf
      rw [hlookup.lookedUp] at hi
      rw [← Option.some.inj hi] at hf
      exact PlanState.groupBy_of_admits hlookup.admits f hf
    · rw [hstate, Step.isAggregating, hlookup.kind]
    · intro _
      exact ⟨index, _, hlookup.kind⟩

theorem isAnswered_of_isRun (run : List (Transition α)) :
    ∀ path t, p.IsRun path t run → (run.getLastD t).state.isAnswered = true := by
  induction run with
  | nil => intro path t h; exact h
  | cons next rest ih =>
      intro path t h
      rw [List.getLastD_cons]
      exact ih _ next h.2.2

/-- What follows a state groups by a part of its grouping and does no work in memory after it has
    aggregated. -/
theorem rules_of_isRun (run : List (Transition α)) :
    ∀ path t, p.IsRun path t run →
      (run.getLastD t).state.query = t.state.query
      ∧ (∀ index ∈ (run.map (·.step)).filterMap (·.lookedUp?), ∀ f, f ∈ index.groupBy →
          f ∈ t.state.groupBy)
      ∧ Plan.workAfterAggregation? t.state.aggregated (run.map (·.step)) = none := by
  induction run with
  | nil =>
      intro path t _
      exact ⟨rfl, fun index hindex => (nomatch hindex), rfl⟩
  | cons next rest ih =>
      intro path t h
      have hstep := keepsRules_of_follows h.2.1
      obtain ⟨hquery, hgroups, hwork⟩ := ih _ next h.2.2
      refine ⟨?_, ?_, ?_⟩
      · rw [List.getLastD_cons, hquery, hstep.query]
      · intro index hindex f hf
        rw [List.map_cons] at hindex
        cases hlookedUp : next.step.lookedUp? with
        | none =>
            rw [List.filterMap_cons_none hlookedUp] at hindex
            exact hstep.groupBy f (hgroups index hindex f hf)
        | some found =>
            rw [List.filterMap_cons_some hlookedUp] at hindex
            rcases List.mem_cons.mp hindex with rfl | hindex
            · exact hstep.lookedUp index hlookedUp f hf
            · exact hstep.groupBy f (hgroups index hindex f hf)
      · rw [hstep.aggregated] at hwork
        rw [List.map_cons, Plan.workAfterAggregation?, if_neg]
        · exact hwork
        · intro hboth
          -- after an aggregation the step is a lookup, which the rule allows
          obtain ⟨htrue, hmemory⟩ := (Bool.and_eq_true _ _).mp hboth
          obtain ⟨index, lookups, hkind⟩ := hstep.inMemory htrue
          rw [hkind] at hmemory
          exact nomatch hmemory

/-- **RUNS ARE VALID**: the plan of a run breaks no rule for complete plans. -/
theorem fault?_planOf [Rendered α] {run : List (Transition α)} (h : p.IsRunOf q run) :
    (planOf q run).fault? = none := by
  obtain ⟨hquery, hgroups, hwork⟩ := rules_of_isRun run _ _ h
  have hsurplus : (planOf q run).surplusGrouping? = none := by
    unfold Plan.surplusGrouping?
    refine List.find?_eq_none.mpr ?_
    intro index hindex hnot
    have hsubset : index.groupBy.isSubset (planOf q run).query.groupBy = true := by
      refine SortedSet.isSubset_iff.mpr ?_
      rw [Plan.query, planOf, hquery]
      exact hgroups index hindex
    rw [hsubset] at hnot
    exact nomatch hnot
  have hanswered : (planOf q run).state.isAnswered = true := isAnswered_of_isRun run _ _ h
  have hinMemory : Plan.workAfterAggregation? false (planOf q run).steps = none := hwork
  unfold Plan.fault?
  rw [hsurplus, hinMemory]
  exact if_pos hanswered

end Planner

/-! ## Plans that stay -/

/-- A forest whose plans all pass a test stays as it is. -/
theorem Forest.retain_eq_self {keep : Plan α → Bool} (f : Forest α) :
    ∀ path, (∀ plan ∈ f.plans path, keep plan = true) → f.retain keep path = f := by
  induction f with
  | empty => intro path _; rfl
  | branch t onward beside ihOnward ihBeside =>
      intro path h
      unfold plans at h
      dsimp only at h
      have hbeside := ihBeside path fun plan hplan => h plan (List.mem_append_right _ hplan)
      unfold retain
      dsimp only
      by_cases hempty : onward.isEmpty = true
      · rw [if_pos hempty] at h ⊢
        have hkeep := h ⟨path ++ [t.step], t.state⟩
          (List.mem_append_left _ (List.mem_singleton.mpr rfl))
        rw [if_pos hkeep, hbeside]
        cases onward with
        | empty => rfl
        | branch => exact absurd hempty Bool.false_ne_true
      · rw [if_neg hempty] at h ⊢
        have honward := ihOnward (path ++ [t.step]) fun plan hplan =>
          h plan (List.mem_append_left _ hplan)
        rw [honward, hbeside, if_pos]
        rw [Bool.eq_false_iff.mpr hempty]
        rfl

/-! ## Queries that are accepted -/

section Accepted

variable [Scalar α] [Rendered α] {m : Model} {d : Query.Draft α} {q : Query α}

/-- A query that is accepted selects or aggregates something. -/
theorem Query.selects_of_build (h : Query.build m d = .ok q) :
    (q.select.isEmpty && q.aggregates.isEmpty) = false := by
  have hfault := (Query.isMadeOf_of_build h).rules
  unfold Query.fault? at hfault
  split at hfault
  · exact nomatch hfault
  · next hselects => exact Bool.eq_false_iff.mpr hselects

/-- A query that is accepted has no field under two conditions. -/
theorem Query.not_mem_range_of_build (h : Query.build m d = .ok q) {f : Field} (hf : f ∈ q.eq) :
    f ∉ q.range := by
  have hfault := (Query.isMadeOf_of_build h).rules
  unfold Query.fault? at hfault
  split at hfault
  · exact nomatch hfault
  · split at hfault
    · obtain ⟨g, hg, hkey⟩ := SortedSet.mem_iff.mp hf
      rw [Option.map_eq_none_iff, List.find?_eq_none] at hfault
      intro hmem
      exact hfault g hg ((SortedSet.mem_congr hkey).mpr hmem)
    · exact nomatch hfault

/-- A query that is accepted has something to fetch. -/
theorem Query.required_of_build (h : Query.build m d = .ok q) : q.required.isEmpty = false := by
  refine Bool.eq_false_iff.mpr fun hempty => ?_
  have hrequired := SortedSet.isEmpty_iff.mp hempty
  have hselects := Query.selects_of_build h
  have hselect : q.select.isEmpty = true := by
    refine SortedSet.isEmpty_iff.mpr fun f hf => hrequired f ?_
    exact SortedSet.mem_union.mpr (.inl (SortedSet.mem_extend.mpr (.inl hf)))
  have haggregates : q.aggregates.isEmpty = true := by
    refine SortedSet.isEmpty_iff.mpr fun a ha => ?_
    obtain ⟨b, hb, -⟩ := SortedSet.mem_iff.mp ha
    refine hrequired b.field (SortedSet.mem_union.mpr (.inl (SortedSet.mem_extend.mpr (.inr ?_))))
    exact ⟨b.field, List.mem_map_of_mem hb, rfl⟩
  rw [hselect, haggregates] at hselects
  exact nomatch hselects

/-- So it is not answered at its start. -/
theorem not_isAnswered_start (h : Query.build m d = .ok q) :
    (Transition.start q).state.isAnswered = false := by
  refine Bool.eq_false_iff.mpr fun hanswered => ?_
  have hfields := (PlanState.isDone_of_isAnsweredFor hanswered).fields
  exact Bool.eq_false_iff.mp (Query.required_of_build h) hfields

end Accepted

/-! ## The plans of a query -/

namespace Planner

variable [Scalar α] [Rendered α] {p : Planner α} {q : Query α}

/-- Without a bound on costs, a tree of valid plans stays as it is. -/
theorem refine_eq_self (hunlimited : p.config.costRatio = none) {tree : PlanTree α}
    (hvalid : ∀ plan ∈ tree.plans, plan.fault? = none) : p.refine tree = tree := by
  unfold refine
  rw [hunlimited]
  show tree.retain _ = tree
  unfold PlanTree.retain
  rw [Forest.retain_eq_self]
  intro plan hplan
  rw [hvalid plan hplan]
  rfl

theorem plan_of_isEmpty (h : (p.search q).isEmpty = true) :
    p.plan q = .error (.noPlanFound q.text (p.search q).text) := by
  unfold plan orNoPlan
  rw [h]
  rfl

theorem plan_of_refine_eq (h : (p.search q).isEmpty = false)
    (hrefine : p.refine (p.search q) = p.search q) : p.plan q = .ok (p.search q) := by
  unfold plan orNoPlan
  rw [h]
  show (if (p.refine (p.search q)).isEmpty = true then _ else _) = _
  rw [hrefine, h]
  rfl

/-- Without a bound on costs, planning returns what the search finds, if it finds a run. -/
theorem plan_of_runs_ne_nil (hunlimited : p.config.costRatio = none)
    (hne : (p.search q).branches.runs ≠ []) : p.plan q = .ok (p.search q) := by
  refine plan_of_refine_eq ?_ (refine_eq_self hunlimited fun plan hplan => ?_)
  · exact Bool.eq_false_iff.mpr fun hempty => hne ((Forest.runs_eq_nil_iff _).mpr hempty)
  · rw [plans_eq_map_planOf (p.search q) q] at hplan
    obtain ⟨run, hrun, rfl⟩ := List.mem_map.mp hplan
    exact fault?_planOf (isRunOf_of_mem_runs hrun)

/-- **THE SEARCH IS EXACT**: for a query that is accepted, the plans of the tree are those of its
    runs, each once and in the order of runs; every run is valid, and planning fails exactly
    where there is none. -/
theorem plan_exact [Scalar.CountsCompare α] {m : Model} {d : Query.Draft α}
    (hq : Query.build m d = .ok q) {indexes : List Index} (hkeys : Index.KeysDistinct indexes)
    (costs : CostModel α) {config : PlanningConfig α} (hratio : config.costRatio = none) :
    ∃ runs : List (List (Transition α)),
      (∀ run, run ∈ runs ↔ (ofIndexes indexes costs config).IsRunOf q run)
      ∧ runs.Nodup
      ∧ runs.Pairwise ComesBefore
      ∧ (∀ run ∈ runs, (planOf q run).fault? = none)
      ∧ (runs ≠ [] → ∃ tree, (ofIndexes indexes costs config).plan q = .ok tree
          ∧ tree.plans = runs.map (planOf q))
      ∧ (runs = [] → (ofIndexes indexes costs config).plan q
          = .error (.noPlanFound q.text ((ofIndexes indexes costs config).search q).text)) := by
  generalize hp : ofIndexes indexes costs config = p
  have hpool : Index.KeysDistinct p.pool := by
    subst hp
    intro i hi j hj
    exact hkeys i (Index.mem_of_mem_pool hi) j (Index.mem_of_mem_pool hj)
  have hsorted : p.IsSorted := by
    subst hp
    exact Index.pairwise_pool indexes
  have hunlimited : p.config.costRatio = none := by
    subst hp
    exact hratio
  have hstart := not_isAnswered_start hq
  have hruns : (p.search q).branches.runs
      = continuations (Transition.start q) (p.search q).branches :=
    (continuations_of_unanswered hstart _).symm
  have hmem : ∀ run, run ∈ (p.search q).branches.runs ↔ p.IsRunOf q run := by
    intro run
    rw [hruns]
    constructor
    · exact isRun_of_mem_continuations _ _ _ run
    · exact mem_continuations_of_isRun hpool _ _ _ run (fun _ h => nomatch h)
        (p.room_start_le q)
  have horder : (p.search q).branches.runs.Pairwise ComesBefore := by
    rw [hruns]
    exact pairwise_continuations hsorted _ _ _
  have hplans := plans_eq_map_planOf (p.search q) q
  refine ⟨(p.search q).branches.runs, hmem, ?_, horder, ?_, ?_, ?_⟩
  · refine horder.imp ?_
    rintro a b hab rfl
    exact not_comesBefore_self a hab
  · intro run hrun
    exact fault?_planOf ((hmem run).mp hrun)
  · intro hne
    exact ⟨p.search q, plan_of_runs_ne_nil hunlimited hne, hplans⟩
  · intro hnil
    exact plan_of_isEmpty ((Forest.runs_eq_nil_iff _).mp hnil)

/-! ## Users of a city

    The users of a city above an age, by name: one index brings them, and they
    are sorted in memory. -/

/-- The identifier of a user. -/
def userId : Field := (Field.ofType "user" "id" .id).withCardinality 100

def userCity : Field := (Field.ofType "user" "city" (.string 16)).withCardinality 10

def userAge : Field := (Field.ofType "user" "age" .integer).withCardinality 50

def userName : Field := (Field.ofType "user" "name" (.string 32)).withCardinality 90

def userEntity : Entity :=
  ⟨"user", 100, userId, SortedSet.ofList [userId, userCity, userAge, userName]⟩

def userModel : Model := Model.empty.add userEntity

def namesDraft : Query.Draft Rat where
  path := ["user"]
  select := ["user.name"]
  eq := ["user.city"]
  range := ["user.age"]
  orderBy := ["user.name"]
  groupBy := []
  aggregates := []
  limit := none
  weight := 1
  text := some "names"

def namesQuery : Query Rat where
  text := "names"
  select := SortedSet.ofList [userName]
  eq := SortedSet.ofList [userCity]
  range := SortedSet.ofList [userAge]
  orderBy := [userName]
  groupBy := ∅
  aggregates := ∅
  limit := none
  graph := JoinGraph.single userEntity
  weight := 1
  handle := 0

/-- Users by their city, in the order of their age. -/
def cityIndex : Index where
  partition := SortedSet.ofList [userCity]
  ordered := [userAge, userId]
  extra := SortedSet.ofList [userName]
  aggregates := ∅
  groupBy := ∅
  graph := JoinGraph.single userEntity

/-- The query has a plan, and so it has runs. -/
theorem plan_exact_names :
    Query.build userModel namesDraft = .ok namesQuery
      ∧ Index.KeysDistinct [cityIndex]
      ∧ ({} : PlanningConfig Rat).costRatio = none
      ∧ ∃ tree, (ofIndexes [cityIndex] .requestCount {}).plan namesQuery = .ok tree
        ∧ ∃ runs, runs ≠ [] ∧ runs.Nodup ∧ tree.plans = runs.map (planOf namesQuery)
          ∧ ∀ run, run ∈ runs
              ↔ (ofIndexes [cityIndex] .requestCount {}).IsRunOf namesQuery run := by
  have hbuild : Query.build userModel namesDraft = .ok namesQuery := rfl
  have hkeys : Index.KeysDistinct [cityIndex] := by
    intro i hi j hj _
    rw [List.mem_singleton.mp hi, List.mem_singleton.mp hj]
  have hratio : ({} : PlanningConfig Rat).costRatio = none := rfl
  have hplanned : ((ofIndexes [cityIndex] (.requestCount : CostModel Rat) {}).plan
      namesQuery).toOption.isSome = true := by decide +kernel
  obtain ⟨runs, hmem, hnodup, -, -, hplans, hnone⟩ :=
    plan_exact hbuild hkeys .requestCount hratio
  have hruns : runs ≠ [] := by
    intro hnil
    rw [hnone hnil] at hplanned
    exact nomatch hplanned
  obtain ⟨tree, htree, hlisted⟩ := hplans hruns
  exact ⟨hbuild, hkeys, hratio, tree, htree, runs, hruns, hnodup, hlisted, hmem⟩

end Planner

end IndexDesign
