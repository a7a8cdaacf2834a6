import IndexDesign.Proofs.Plan.Executable

/-! # What follows an aggregation

    Once a run has aggregated, nothing is done in memory any more, and no index
    that is looked up aggregates again.  An aggregation in memory ends its run:
    it comes when all else is done.

    An aggregating index is less restrained.  The run can go on behind it with
    indexes that do not aggregate, and these apply the conditions that the
    aggregating index has left.  So conditions come before the aggregation
    exactly where none is left right behind it. -/

namespace IndexDesign

variable {α : Type}

/-- The transitions that go on from `t` apply no condition. -/
def AppliesNoCondition (t : Transition α) (after : List (Transition α)) : Prop :=
  ∀ f, departures (·.eq.contains f) t after = [] ∧ departures (·.range.contains f) t after = []

/-- Behind a transition that aggregates, the run applies no condition. -/
def ConditionsComeFirst (run : List (Transition α)) : Prop :=
  ∀ before next after, run = before ++ next :: after → next.step.isAggregating = true →
    AppliesNoCondition next after

/-- No condition is left right behind a transition that aggregates. -/
def AggregatesLast (run : List (Transition α)) : Prop :=
  ∀ before next after, run = before ++ next :: after → next.step.isAggregating = true →
    next.state.eq.isEmpty = true ∧ next.state.range.isEmpty = true

/-- What a run does behind the transition `next`, which aggregates. -/
structure AfterAggregation (q : Query α) (next : Transition α) (after : List (Transition α)) :
    Prop where
  /-- Only indexes that do not aggregate are looked up. -/
  plain : ∀ later ∈ after, ∃ index, later.step.lookedUp? = some index ∧ index.isAggregating = false
  /-- Nothing follows an aggregation in memory. -/
  inMemory : next.step.lookedUp? = none → after = []
  /-- The equality conditions that are left are applied, each by one of these lookups. -/
  eq : ∀ f ∈ next.state.eq, ∃ step,
    departures (·.eq.contains f) next after = [step] ∧ step.AppliesEq q f
  /-- So are the range conditions. -/
  range : ∀ f ∈ next.state.range, ∃ step,
    departures (·.range.contains f) next after = [step] ∧ step.AppliesRange q f

namespace Planner

variable [Scalar α] {p : Planner α} {q : Query α} {path steps : List (Step α)}
  {t next : Transition α}

/-- A run of a query, read from one of its transitions on. -/
theorem exists_tracks_of_isRunOf {before after : List (Transition α)}
    (h : p.IsRunOf q (before ++ next :: after)) :
    ∃ path t steps, p.Follows path t next ∧ p.IsRun (next.step :: path) next after
      ∧ next.state.Tracks q steps := by
  obtain ⟨path, t, ht, hfollows, hafter⟩ := exists_of_isRun_append
    (fun path t => t.state.Tracks q path.reverse)
    (fun ht hfollows => by rw [List.reverse_cons]; exact tracks_of_follows ht hfollows)
    before [] (Transition.start q) (tracks_start q) h
  exact ⟨path, t, _, hfollows, hafter, tracks_of_follows ht hfollows⟩

/-! ## Steps behind an aggregation -/

/-- Behind an aggregation only indexes that do not aggregate follow. -/
theorem lookup_of_aggregated (haggregated : t.state.aggregated = true)
    (h : p.Follows path t next) :
    ∃ index, next.step.lookedUp? = some index ∧ index.isAggregating = false := by
  rcases isInMemory_or_isLookup h with hmemory | ⟨index, -, covered, hlookup⟩
  · rw [hmemory.before] at haggregated
    exact nomatch haggregated
  · refine ⟨index, hlookup.lookedUp, ?_⟩
    have hadmits := hlookup.admits
    simpa [PlanState.admitsAggregation, haggregated] using hadmits

theorem lookups_of_aggregated (run : List (Transition α)) :
    ∀ path t, p.IsRun path t run → t.state.aggregated = true →
      ∀ later ∈ run, ∃ index, later.step.lookedUp? = some index ∧ index.isAggregating = false := by
  induction run with
  | nil => intro path t _ _ later hlater; exact nomatch hlater
  | cons next rest ih =>
      intro path t hrun haggregated later hlater
      obtain ⟨-, hfollows, hrest⟩ := hrun
      have hnext : next.state.aggregated = true := by
        rw [(keepsRules_of_follows hfollows).aggregated, haggregated, Bool.true_or]
      rcases List.mem_cons.mp hlater with rfl | hlater
      · exact lookup_of_aggregated haggregated hfollows
      · exact ih _ next hrest hnext later hlater

omit [Scalar α] in
theorem not_isFilter_of_isAggregating {step : Step α} (h : step.isAggregating = true) :
    step.isFilter = false := by
  simp only [Step.isAggregating] at h
  cases hkind : step.kind with
  | filter eq range => rw [hkind] at h; cases h
  | _ => rw [Step.isFilter, hkind]

/-! ## Conditions behind an aggregation -/

theorem isTakenOutBy_eq (f : Field) :
    p.IsTakenOutBy q (fun s => s.eq.contains f) (Step.AppliesEq q f) :=
  isTakenOutBy_of_takesOut takesOut_eq
    (fun hanswered => (PlanState.isDone_of_isAnsweredFor hanswered).eq) f

theorem isTakenOutBy_range (f : Field) :
    p.IsTakenOutBy q (fun s => s.range.contains f) (Step.AppliesRange q f) :=
  isTakenOutBy_of_takesOut takesOut_range
    (fun hanswered => (PlanState.isDone_of_isAnsweredFor hanswered).range) f

/-- Conditions are applied behind a state exactly where some are left in it. -/
theorem appliesNoCondition_iff {run : List (Transition α)} (hrun : p.IsRun path t run)
    (ht : t.state.Tracks q steps) :
    AppliesNoCondition t run ↔ t.state.eq.isEmpty = true ∧ t.state.range.isEmpty = true := by
  rw [SortedSet.isEmpty_iff, SortedSet.isEmpty_iff]
  constructor
  · intro hnone
    refine ⟨fun f hf => ?_, fun f hf => ?_⟩
    · obtain ⟨step, hstep, -⟩ := exists_departure (isTakenOutBy_eq f) run path t steps hrun ht hf
      rw [(hnone f).1] at hstep
      exact nomatch hstep
    · obtain ⟨step, hstep, -⟩ :=
        exists_departure (isTakenOutBy_range f) run path t steps hrun ht hf
      rw [(hnone f).2] at hstep
      exact nomatch hstep
  · rintro ⟨heq, hrange⟩ f
    refine ⟨?_, ?_⟩
    · exact departures_of_absent (isTakenOutBy_eq f) run path t steps hrun ht
        (SortedSet.contains_eq_false_iff.mpr (heq f))
    · exact departures_of_absent (isTakenOutBy_range f) run path t steps hrun ht
        (SortedSet.contains_eq_false_iff.mpr (hrange f))

theorem afterAggregation_of_isRun {after : List (Transition α)}
    (hfollows : p.Follows path t next) (hrun : p.IsRun (next.step :: path) next after)
    (ht : next.state.Tracks q steps) (haggregating : next.step.isAggregating = true) :
    AfterAggregation q next after := by
  have haggregated : next.state.aggregated = true := by
    rw [(keepsRules_of_follows hfollows).aggregated, haggregating, Bool.or_true]
  have hplain := lookups_of_aggregated after _ next hrun haggregated
  refine ⟨hplain, ?_, ?_, ?_⟩
  · intro hmemory
    cases after with
    | nil => rfl
    | cons later rest =>
        -- a step that follows would be a lookup, with nothing left to visit
        have hjoins := joins_of_follows hfollows hmemory
          (not_isFilter_of_isAggregating haggregating)
        obtain ⟨index, hindex, -⟩ := hplain later List.mem_cons_self
        rw [not_lookup_of_joins_nil hjoins.2 hrun.2.1] at hindex
        exact nomatch hindex
  · intro f hf
    exact exists_departure (isTakenOutBy_eq f) after _ next steps hrun ht hf
  · intro f hf
    exact exists_departure (isTakenOutBy_range f) after _ next steps hrun ht hf

/-- **WHAT FOLLOWS AN AGGREGATION**: behind a step that aggregates, a plan that is returned only
    looks up indexes that do not aggregate, and these apply the conditions that are left.  So
    the conditions come first exactly where none is left behind such a step. -/
theorem plan_afterAggregation [Rendered α] {tree : PlanTree α} (h : p.plan q = .ok tree) :
    ∀ plan ∈ tree.plans, ∃ run ∈ tree.branches.runs, plan = planOf q run
      ∧ (∀ before next after, run = before ++ next :: after → next.step.isAggregating = true →
          AfterAggregation q next after)
      ∧ (ConditionsComeFirst run ↔ AggregatesLast run) := by
  intro plan hplan
  obtain ⟨run, hrun, rfl, hisRun⟩ := exists_run_of_mem_plans h hplan
  refine ⟨run, hrun, rfl, ?_, ?_⟩
  · rintro before next after rfl haggregating
    obtain ⟨path, t, steps, hfollows, hafter, hnext⟩ := exists_tracks_of_isRunOf hisRun
    exact afterAggregation_of_isRun hfollows hafter hnext haggregating
  · refine forall_congr' fun before => forall_congr' fun next => forall_congr' fun after =>
      forall_congr' fun hsplit => forall_congr' fun _ => ?_
    subst hsplit
    obtain ⟨path, t, steps, -, hafter, hnext⟩ := exists_tracks_of_isRunOf hisRun
    exact appliesNoCondition_iff hafter hnext

/-! ## Users of a city who write about a topic

    One index counts the users of a city, another finds the messages of a user
    about a topic.  The count comes first and the topic behind it. -/

def tweetId : Field := (Field.ofType "tweet" "id" .id).withCardinality 1000

def tweetTopic : Field := (Field.ofType "tweet" "topic" (.string 16)).withCardinality 50

def tweetUser : Field := (Field.ofType "tweet" "user" (.foreignKey "user")).withCardinality 100

def tweetEntity : Entity :=
  ⟨"tweet", 1000, tweetId, SortedSet.ofList [tweetId, tweetTopic, tweetUser]⟩

def userTweets : JoinGraph :=
  (JoinGraph.single userEntity).withEdge tweetEntity userEntity tweetUser

def topicDraft : Query.Draft Rat where
  path := ["user", "tweet"]
  select := []
  eq := ["user.city", "tweet.topic"]
  range := []
  orderBy := []
  groupBy := []
  aggregates := [(.count, "user.id")]
  limit := none
  weight := 1
  text := some "topic"

def topicQuery : Query Rat where
  text := "topic"
  select := ∅
  eq := SortedSet.ofList [userCity, tweetTopic]
  range := ∅
  orderBy := []
  groupBy := ∅
  aggregates := SortedSet.ofList [⟨.count, userId⟩]
  limit := none
  graph := userTweets
  weight := 1
  handle := 0

/-- The number of users of a city. -/
def countIndex : Index where
  partition := SortedSet.ofList [userCity]
  ordered := [userId]
  extra := ∅
  aggregates := SortedSet.ofList [⟨.count, userId⟩]
  groupBy := ∅
  graph := JoinGraph.single userEntity

/-- The messages of a user by topic. -/
def topicIndex : Index where
  partition := SortedSet.ofList [userId]
  ordered := [tweetTopic, tweetId]
  extra := ∅
  aggregates := ∅
  groupBy := ∅
  graph := userTweets

def topicPlanner : Planner Rat := ofIndexes [countIndex, topicIndex] .requestCount {}

/-- The plan of the query exists. -/
theorem plan_afterAggregation_topic :
    ∃ tree, topicPlanner.plan topicQuery = .ok tree
      ∧ ∃ plan ∈ tree.plans, ∃ run ∈ tree.branches.runs, plan = planOf topicQuery run
        ∧ (∀ before next after, run = before ++ next :: after →
            next.step.isAggregating = true → AfterAggregation topicQuery next after)
        ∧ (ConditionsComeFirst run ↔ AggregatesLast run) := by
  have hplanned : (topicPlanner.plan topicQuery).toOption.any (!·.plans.isEmpty) = true := by
    decide +kernel
  obtain ⟨tree, htree, hplans⟩ := Option.any_eq_true _ _ |>.mp hplanned
  have hok := toOption_eq_some_iff.mp htree
  rw [Bool.not_eq_true', List.isEmpty_eq_false_iff] at hplans
  obtain ⟨plan, hplan⟩ := List.exists_mem_of_ne_nil _ hplans
  exact ⟨tree, hok, plan, hplan, plan_afterAggregation hok plan hplan⟩

/-- Its topic is applied after its users have been counted. -/
theorem topic_applied_after_count :
    Query.build (userModel.add tweetEntity) topicDraft = .ok topicQuery
      ∧ countIndex.fault?.isNone = true ∧ topicIndex.fault?.isNone = true
      ∧ ∃ tree, topicPlanner.plan topicQuery = .ok tree
        ∧ ∃ run ∈ tree.branches.runs, ¬ ConditionsComeFirst run := by
  refine ⟨rfl, by decide +kernel, by decide +kernel, ?_⟩
  have hfound : (topicPlanner.plan topicQuery).toOption.any (·.branches.runs.any fun run =>
      run.head?.any fun count => count.step.isAggregating
        && !(departures (·.eq.contains tweetTopic) count run.tail).isEmpty) = true := by
    decide +kernel
  obtain ⟨tree, htree, hruns⟩ := Option.any_eq_true _ _ |>.mp hfound
  obtain ⟨run, hrun, hlate⟩ := List.any_eq_true.mp hruns
  obtain ⟨count, hcount, hlate⟩ := Option.any_eq_true _ _ |>.mp hlate
  refine ⟨tree, toOption_eq_some_iff.mp htree, run, hrun, fun hfirst => ?_⟩
  obtain ⟨after, rfl⟩ := List.head?_eq_some_iff.mp hcount
  rw [Bool.and_eq_true] at hlate
  have hnone := (hfirst [] count after rfl hlate.1 tweetTopic).1
  rw [List.tail_cons, hnone] at hlate
  cases hlate.2

end Planner

end IndexDesign
