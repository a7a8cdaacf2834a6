import IndexDesign.Proofs.Plan.Joins

/-! # Successive lookups are correlated

    A rule lets any lookup pass where there is no identifier to start from.
    Behind a first lookup it never applies: the branch then stands at the last
    entity that the lookup covered, an index has the identifiers of all its
    entities in its key, and so that of this entity has been fetched.  Steps in
    memory fetch nothing and do not move the branch, unless nothing is left to
    visit.

    The index and the query have to mean the same entity by a name.  They do
    where both are about entities of one model. -/

namespace IndexDesign

variable {α : Type} [Scalar α]

/-- The lookup of an index at the state makes use of the lookup of `parent` before it. -/
structure IsCorrelated (s : PlanState α) (parent index : Index) : Prop where
  /-- The identifier of the entity where the branch stands has been fetched. -/
  head : ∃ id, Proposal.headId ⟨s, some parent, index⟩ = some id ∧ id ∈ s.fetched
  /-- The rule that has accepted the lookup is about that identifier or about the parent. -/
  accepted : ∃ rule ∈ [ParentRule.consumesParentId, .orderedPrefixId, .compositeKeySplit,
      .subsumingParent], ParentRule.decision ⟨s, some parent, index⟩ = (rule, .ok ())
  apart : ¬ (parent.isIdentity = true ∧ index.isIdentity = true
    ∧ (parent.graph == index.graph) = true)

/-! ## Rules -/

namespace ParentRule

variable {p : Proposal α} {parent : Index}

/-- What is accepted is accepted by one of the rules. -/
theorem exists_accept_of_decision (h : (decision p).2 = .ok ()) :
    ∃ rule, verdict p rule = .accept ∧ decision p = (rule, .ok ()) := by
  simp only [decision] at h ⊢
  generalize hdecided : all.findSome? _ = decided at h ⊢
  cases decided with
  | none => exact nomatch h
  | some decided =>
      obtain ⟨rule, -, hrule⟩ := List.exists_of_findSome?_eq_some hdecided
      split at hrule
      · next haccept => exact ⟨rule, haccept, (Option.some.inj hrule).symm⟩
      · rw [← Option.some.inj hrule] at h
        exact nomatch h
      · exact nomatch hrule

/-- With a lookup before and an identifier that is reachable, what is accepted is accepted by a
    rule about one of them, and it is not the same lookup by identifier again. -/
theorem accepted_of_parent (hparent : p.parent = some parent)
    (hhead : p.headId.any p.state.isReachable = true) (h : (decision p).2 = .ok ()) :
    (∃ rule ∈ [consumesParentId, orderedPrefixId, compositeKeySplit, subsumingParent],
        decision p = (rule, .ok ()))
      ∧ ¬ (parent.isIdentity = true ∧ p.candidate.isIdentity = true
        ∧ (parent.graph == p.candidate.graph) = true) := by
  have hfirst : verdict p firstLookup = .pass := by simp [verdict, hparent]
  have hidentifier : verdict p noParentId = .pass := by simp [verdict, hhead]
  constructor
  · obtain ⟨rule, haccept, hdecision⟩ := exists_accept_of_decision h
    refine ⟨rule, ?_, hdecision⟩
    cases rule with
    | firstLookup => exact nomatch hfirst.symm.trans haccept
    | repeatedIdentityLookup =>
        simp only [verdict] at haccept
        split at haccept
        · exact nomatch haccept
        · exact nomatch haccept
    | noParentId => exact nomatch hidentifier.symm.trans haccept
    | parentIdUnused => exact nomatch haccept
    | _ => decide
  -- the rule against a repetition is asked before any of them
  · rintro ⟨hidentity, hidentity', hgraph⟩
    have hreject : verdict p repeatedIdentityLookup = .reject .repeatedIdentityLookup := by
      simp [verdict, hparent, hidentity, hidentity', hgraph]
    simp [decision, all, hfirst, hreject] at h

end ParentRule

/-! ## Where a branch stands -/

namespace Planner

variable {m : Model} {p : Planner α} {q : Query α} {path : List (Step α)} {t next : Transition α}

/-- The branch visits entities of the model, each once, and once it has looked something up it
    has fetched the identifier of the entity where it stands. -/
structure IsAnchored (m : Model) (path : List (Step α)) (t : Transition α) : Prop where
  nodup : t.state.joins.Nodup
  within : ∀ v ∈ t.state.joins, v ∈ t.state.graph.names
  entities : ∀ e ∈ t.state.graph.entities.toList, e ∈ m.entities.toList
  head : path.findSome? (·.lookedUp?) ≠ none → ∀ e ∈ t.state.graph.entities.toList,
    t.state.joins.head? = some e.name → e.id ∈ t.state.fetched

theorem isAnchored_start (hwalks : q.graph.KeepsWalks)
    (hq : ∀ e ∈ q.graph.entities.toList, e ∈ m.entities.toList) :
    IsAnchored m [] (Transition.start q) := by
  obtain ⟨hnodup, hwithin⟩ := JoinGraph.joinOrder_sound hwalks q.eq
  exact ⟨hnodup, hwithin, hq, fun h => absurd rfl h⟩

omit [Scalar α] in
/-- What is to be visited may be settled. -/
theorem isAnchored_of_settles {graph : JoinGraph} {joins : List String} (hnodup : joins.Nodup)
    (hwithin : ∀ v ∈ joins, v ∈ graph.names)
    (hentities : ∀ e ∈ graph.entities.toList, e ∈ m.entities.toList)
    (hhead : path.findSome? (·.lookedUp?) ≠ none → ∀ e ∈ graph.entities.toList,
      joins.head? = some e.name → e.id ∈ t.state.fetched)
    (hsettles : t.state.Settles graph joins) : IsAnchored m path t := by
  rcases hsettles with ⟨hgraph, hjoins⟩ | ⟨last, -, hgraph, hjoins⟩
  · exact ⟨by rwa [hjoins], by rwa [hgraph, hjoins], by rwa [hgraph], by rwa [hgraph, hjoins]⟩
  -- nothing is left to visit
  · refine ⟨by rw [hjoins]; exact .nil, ?_, ?_, ?_⟩
    · rw [hjoins]
      exact fun v hv => nomatch hv
    · rw [hgraph]
      exact fun e he => absurd he List.not_mem_nil
    · rw [hgraph]
      exact fun _ e he => absurd he List.not_mem_nil

/-- Behind a lookup the identifier of the last entity that it covers has been fetched. -/
theorem isAnchored_lookup {index : Index} {covered : List String} {context : LookupContext}
    (hwell : index.IsWellFormed)
    (hindex : ∀ e ∈ index.graph.entities.toList, e ∈ m.entities.toList)
    (ht : IsAnchored m path t)
    (h : Transition.IsLookup p.costs t.state context index covered next) :
    IsAnchored m (next.step :: path) next := by
  obtain ⟨interior, last, rest, rfl, hjoins, hcovers⟩ :=
    PlanState.exists_covers ht.nodup h.coverage
  have hsettles := t.state.settles_afterLookup index (interior ++ [last])
  rw [← h.state, List.dropLast_concat, hjoins, List.length_append, List.length_singleton,
    Nat.add_sub_cancel, List.drop_left] at hsettles
  have hnodup := ht.nodup
  rw [hjoins] at hnodup
  obtain ⟨-, hrest, hdisjoint⟩ := List.nodup_append.mp hnodup
  have hleft : ∀ e ∈ (t.state.graph.without interior).entities.toList,
      e ∈ t.state.graph.entities.toList := fun e he => (List.mem_filter.mp he).1
  refine isAnchored_of_settles hrest (fun v hv => ?_) (fun e he => ht.entities e (hleft e he))
    (fun _ e he hfirst => ?_) hsettles
  · refine JoinGraph.mem_names_without.mpr ⟨ht.within v ?_, fun hin => hdisjoint v hin v hv rfl⟩
    rw [hjoins]
    exact List.mem_append_right _ hv
  -- the index and the query mean the same entity, and the index has its identifier
  · have hlast : last = e.name := Option.some.inj hfirst
    obtain ⟨e', he', hname⟩ := List.mem_map.mp ((hcovers.mem_iff last).mpr (.inr rfl))
    have hsame : e' = e := by
      refine SortedSet.eq_of_key_eq (hindex e' he') (ht.entities e (hleft e he)) ?_
      show [e'.name] = [e.name]
      rw [hname, hlast]
    obtain ⟨graph, joins, rows, lookups, hstate⟩ :=
      t.state.afterLookup_eq index (interior ++ [last])
    rw [h.state, hstate]
    refine SortedSet.mem_union.mpr (.inr ?_)
    rw [← hsame]
    exact hwell.mem_allFields_id he'

/-- **STEPS KEEP THE BRANCH ANCHORED**. -/
theorem isAnchored_of_follows (hwell : ∀ i ∈ p.pool, i.IsWellFormed)
    (hpool : ∀ i ∈ p.pool, ∀ e ∈ i.graph.entities.toList, e ∈ m.entities.toList)
    (ht : IsAnchored m path t) (h : p.Follows path t next) :
    IsAnchored m (next.step :: path) next := by
  rcases isInMemory_or_isLookup h with hmemory | ⟨index, hindex, covered, hlookup⟩
  · have hsettles : next.state.Settles t.state.graph t.state.joins := by
      obtain ⟨-, hsame | ⟨-, hsettles⟩⟩ := settles_of_inMemory h hmemory.lookedUp
      · exact .inl hsame
      · exact hsettles
    refine isAnchored_of_settles ht.nodup ht.within ht.entities (fun hsome => ?_) hsettles
    rw [List.findSome?_cons, hmemory.lookedUp] at hsome
    rw [hmemory.fetched]
    exact ht.head hsome
  · exact isAnchored_lookup (hwell index hindex) (hpool index hindex) ht hlookup

/-- From an anchored branch every further lookup is correlated with the last one. -/
theorem isCorrelated_of_follows {parent index : Index} (ht : IsAnchored m path t)
    (h : p.Follows path t next) (hindex : next.step.lookedUp? = some index)
    (hparent : path.findSome? (·.lookedUp?) = some parent) :
    IsCorrelated t.state parent index := by
  cases h with
  | filter h => exact nomatch (Transition.isInMemory_filter h).lookedUp.symm.trans hindex
  | sort h => exact nomatch (Transition.isInMemory_sort h).lookedUp.symm.trans hindex
  | limit h => exact nomatch (Transition.isInMemory_limit h).lookedUp.symm.trans hindex
  | aggregate h => exact nomatch (Transition.isInMemory_aggregate h).lookedUp.symm.trans hindex
  | lookup found _ _ _ h =>
      have hdecision := Transition.decision_of_lookup h
      obtain ⟨covered, hlookup⟩ := Transition.lookup_spec h
      obtain rfl : found = index := Option.some.inj (hlookup.lookedUp.symm.trans hindex)
      dsimp only at hdecision
      rw [hparent] at hdecision
      -- the branch stands at an entity of the graph
      obtain ⟨head, hjoins, -⟩ :=
        Option.any_eq_true _ _ |>.mp (PlanState.head_contained_of_coverage hlookup.coverage)
      obtain ⟨e, he, rfl⟩ := List.mem_map.mp (ht.within head (List.mem_of_head? hjoins))
      have hid : Proposal.headId ⟨t.state, some parent, found⟩ = some e.id := by
        simp [Proposal.headId, hjoins, JoinGraph.entity?_eq_some_of_mem he]
      have hfetched : e.id ∈ t.state.fetched :=
        ht.head (by rw [hparent]; exact Option.some_ne_none parent) e he hjoins
      have hreachable : t.state.isReachable e.id = true := by
        rw [PlanState.isReachable, Bool.or_eq_true]
        exact .inl hfetched
      obtain ⟨haccepted, hapart⟩ := ParentRule.accepted_of_parent rfl
        (by rw [hid, Option.any_some]; exact hreachable) hdecision
      exact ⟨⟨e.id, hid, hfetched⟩, haccepted, hapart⟩

/-! ## Plans -/

/-- **SUCCESSIVE LOOKUPS ARE CORRELATED**: with candidates that are built, over entities of one
    model with the query's, each lookup of a plan but the first is accepted by a rule about the
    lookup before it or about the identifier that this has fetched, and two lookups with none
    between them are not both by identifier on equal graphs. -/
theorem plan_correlated [Rendered α] {indexes : List Index}
    (hbuilt : ∀ i ∈ indexes, ∃ d, Index.build d = .ok i)
    (hindexes : ∀ i ∈ indexes, ∀ e ∈ i.graph.entities.toList, e ∈ m.entities.toList)
    (hwalks : q.graph.KeepsWalks) (hq : ∀ e ∈ q.graph.entities.toList, e ∈ m.entities.toList)
    (costs : CostModel α) (config : PlanningConfig α) {tree : PlanTree α}
    (h : (ofIndexes indexes costs config).plan q = .ok tree) :
    ∀ plan ∈ tree.plans, ∃ run ∈ tree.branches.runs, plan = planOf q run
      ∧ ∀ before next after, run = before ++ next :: after → ∀ index parent,
        next.step.lookedUp? = some index →
        (before.map (·.step)).reverse.findSome? (·.lookedUp?) = some parent →
        IsCorrelated (before.getLastD (Transition.start q)).state parent index := by
  intro plan hplan
  obtain ⟨run, hrun, rfl, hisRun⟩ := exists_run_of_mem_plans h hplan
  refine ⟨run, hrun, rfl, ?_⟩
  rintro before next after rfl index parent hindex hparent
  have hwell : ∀ i ∈ (ofIndexes indexes costs config).pool, i.IsWellFormed := by
    intro i hi
    obtain ⟨d, hd⟩ := hbuilt i (Index.mem_of_mem_pool hi)
    exact (Index.build_eq_ok_iff.mp hd).2
  obtain ⟨hanchored, hfollows, -⟩ := holds_of_isRun_append (IsAnchored m)
    (isAnchored_of_follows hwell fun i hi => hindexes i (Index.mem_of_mem_pool hi)) before [] _
    (isAnchored_start hwalks hq) hisRun
  rw [List.append_nil] at hanchored hfollows
  exact isCorrelated_of_follows hanchored hfollows hindex hparent

/-- The messages are looked up by the users that the first index has found. -/
theorem plan_correlated_topics :
    (∀ i ∈ [cityUsersIndex, messagesIndex], ∃ d, Index.build d = .ok i)
      ∧ (∀ i ∈ [cityUsersIndex, messagesIndex], ∀ e ∈ i.graph.entities.toList,
        e ∈ (userModel.add tweetEntity).entities.toList)
      ∧ cityTopicsQuery.graph.KeepsWalks
      ∧ ∃ tree, (ofIndexes [cityUsersIndex, messagesIndex] .requestCount {}).plan cityTopicsQuery
          = .ok tree
        ∧ ∃ plan ∈ tree.plans, ∃ run ∈ tree.branches.runs, plan = planOf cityTopicsQuery run
          ∧ ∃ first second, run = [first, second] ∧ ∃ parent index,
            first.step.lookedUp? = some parent ∧ second.step.lookedUp? = some index
              ∧ IsCorrelated first.state parent index := by
  have hbuilt : ∀ i ∈ [cityUsersIndex, messagesIndex], ∃ d, Index.build d = .ok i :=
    List.forall_mem_cons.mpr ⟨⟨cityUsersDraft, rfl⟩,
      List.forall_mem_singleton.mpr ⟨messagesDraft, rfl⟩⟩
  have huser : userEntity ∈ (userModel.add tweetEntity).entities.toList :=
    List.mem_cons_of_mem _ List.mem_cons_self
  have htweet : tweetEntity ∈ (userModel.add tweetEntity).entities.toList := List.mem_cons_self
  have hjoined : ∀ e ∈ userTweets.entities.toList,
      e ∈ (userModel.add tweetEntity).entities.toList :=
    List.forall_mem_cons.mpr ⟨htweet, List.forall_mem_singleton.mpr huser⟩
  have hindexes : ∀ i ∈ [cityUsersIndex, messagesIndex], ∀ e ∈ i.graph.entities.toList,
      e ∈ (userModel.add tweetEntity).entities.toList :=
    List.forall_mem_cons.mpr ⟨List.forall_mem_singleton.mpr huser,
      List.forall_mem_singleton.mpr hjoined⟩
  have hwalks : cityTopicsQuery.graph.KeepsWalks := by decide +kernel
  have hplanned : ((ofIndexes [cityUsersIndex, messagesIndex]
      (.requestCount : CostModel Rat) {}).plan cityTopicsQuery).toOption.any
        (·.plans.any fun plan => plan.steps.map (·.lookedUp?.isSome) == [true, true]) = true := by
    decide +kernel
  obtain ⟨tree, hok, hplans⟩ := Option.any_eq_true _ _ |>.mp hplanned
  obtain ⟨plan, hplan, hsteps⟩ := List.any_eq_true.mp hplans
  have hok := toOption_eq_some_iff.mp hok
  obtain ⟨run, hrun, rfl, hcorrelated⟩ :=
    plan_correlated hbuilt hindexes hwalks hjoined .requestCount {} hok plan hplan
  refine ⟨hbuilt, hindexes, hwalks, tree, hok, _, hplan, run, hrun, rfl, ?_⟩
  have hrunSteps : run.map (·.step.lookedUp?.isSome) = [true, true] := by
    rw [← eq_of_beq hsteps, planOf, List.map_map]
    rfl
  obtain ⟨first, rest, rfl, hfirst, hrest⟩ := List.map_eq_cons_iff.mp hrunSteps
  obtain ⟨second, nothing, rfl, hsecond, hnothing⟩ := List.map_eq_cons_iff.mp hrest
  obtain rfl := List.map_eq_nil_iff.mp hnothing
  obtain ⟨parent, hparent⟩ := Option.isSome_iff_exists.mp hfirst
  obtain ⟨index, hindex⟩ := Option.isSome_iff_exists.mp hsecond
  refine ⟨first, second, rfl, parent, index, hparent, hindex, ?_⟩
  refine hcorrelated [first] second [] rfl index parent hindex ?_
  rw [List.map_singleton, List.reverse_singleton, List.findSome?_cons, hparent]

end Planner

end IndexDesign
