import IndexDesign.Proofs.Plan.Joins
import IndexDesign.Proofs.Plan.Reached

/-! # Checks that never fail

    A lookup is checked in several ways before it is taken, and two of the
    checks are carried by others.

    * An index covers entities that it has, and it has the identifier of each
      of its entities in its key.  So it completes every leaf that it covers,
      as long as the index and the state mean the same entity by a name.
    * The search only tries the candidates that have the entity where the
      branch stands, so none of them lacks it.

    A search therefore never counts one of these rejections. -/

namespace IndexDesign

variable {α : Type} [Scalar α]

/-! ## Why a lookup is refused -/

omit [Scalar α] in
/-- An index does not cover what comes next where nothing does, where it lacks the entity at which
    the branch stands, or where it is joined otherwise. -/
theorem PlanState.reason_of_coverage {s : PlanState α} {index : Index} {reason : Rejection}
    (h : s.coverage index = .error reason) :
    reason = .notApplicable
      ∨ reason = .joinHeadMissing ∧ s.joins.head?.any index.graph.contains = false
      ∨ reason = .joinEdgesNotImplied := by
  simp only [coverage] at h
  cases hjoins : s.joins with
  | nil =>
      rw [hjoins] at h
      exact .inl (Except.error.inj h).symm
  | cons head rest =>
      simp only [hjoins] at h
      split at h
      · next hmissing =>
        rw [Bool.not_eq_true'] at hmissing
        exact .inr (.inl ⟨(Except.error.inj h).symm, hmissing⟩)
      · split at h
        · exact .inr (.inr (Except.error.inj h).symm)
        · split at h
          · cases h
          · exact .inr (.inr (Except.error.inj h).symm)

/-- A rule refuses a lookup for the lookup before it and for nothing else. -/
theorem ParentRule.reason_of_decision {p : Proposal α} {reason : Rejection}
    (h : (decision p).2 = .error reason) :
    reason = .repeatedIdentityLookup ∨ reason = .parentIdUnused := by
  simp only [decision] at h
  generalize hdecided : all.findSome? _ = decided at h
  cases decided with
  | none => exact .inr (Except.error.inj h).symm
  | some decided =>
      obtain ⟨rule, -, hrule⟩ := List.exists_of_findSome?_eq_some hdecided
      split at hrule
      · rw [← Option.some.inj hrule] at h
        cases h
      · next why hreject =>
        obtain rfl : why = reason := by
          rw [← Option.some.inj hrule] at h
          exact Except.error.inj h
        cases rule with
        | repeatedIdentityLookup =>
            simp only [verdict] at hreject
            split at hreject
            · exact .inl (Verdict.reject.inj hreject).symm
            · cases hreject
        | parentIdUnused => exact .inr (Verdict.reject.inj hreject).symm
        | _ =>
            simp only [verdict] at hreject
            split at hreject
            · cases hreject
            · cases hreject
      · cases hrule

namespace Transition

variable {costs : CostModel α} {s : PlanState α} {context : LookupContext} {index : Index}
  {reason : Rejection}

/-- The first check that a lookup does not pass gives the reason. -/
theorem refused_of_lookup (h : lookup costs s context index = .error reason) :
    s.coverage index = .error reason ∨ ∃ covered, s.coverage index = .ok covered
      ∧ (reason = .backwardLookup
        ∨ (ParentRule.decision ⟨s, context.last, index⟩).2 = .error reason
        ∨ reason = .partitionUnbound ∨ reason = .missingLocalFields
        ∨ reason = .leafIncomplete ∧ s.completesLeaves index covered = false
        ∨ reason = .aggregationIncompatible) := by
  simp only [lookup] at h
  cases hcovered : s.coverage index with
  | error why =>
      rw [hcovered] at h
      exact .inl (congrArg Except.error (Except.error.inj h))
  | ok covered =>
      rw [hcovered] at h
      dsimp only [bind, Except.bind] at h
      refine .inr ⟨covered, rfl, ?_⟩
      split at h
      · exact .inl (Except.error.inj h).symm
      · split at h
        · next why hdecision =>
          rw [hdecision]
          exact .inr (.inl (congrArg Except.error (Except.error.inj h)))
        · split at h
          · exact .inr (.inr (.inl (Except.error.inj h).symm))
          · split at h
            · exact .inr (.inr (.inr (.inl (Except.error.inj h).symm)))
            · split at h
              · next hleaves =>
                rw [Bool.not_eq_true'] at hleaves
                exact .inr (.inr (.inr (.inr (.inl ⟨(Except.error.inj h).symm, hleaves⟩))))
              · split at h
                · exact .inr (.inr (.inr (.inr (.inr (Except.error.inj h).symm))))
                · cases h

/-- A lookup is refused for the entity where the branch stands only if the index lacks it. -/
theorem head_of_joinHeadMissing (h : lookup costs s context index = .error .joinHeadMissing) :
    s.joins.head?.any index.graph.contains = false := by
  have hdecision (hrule : (ParentRule.decision ⟨s, context.last, index⟩).2
      = .error .joinHeadMissing) := ParentRule.reason_of_decision hrule
  rcases refused_of_lookup h with hcoverage | ⟨covered, hcoverage, hreason⟩
  · simpa using PlanState.reason_of_coverage hcoverage
  · simp_all

/-- A lookup is refused for an incomplete leaf only if the index leaves one of those that it
    covers incomplete. -/
theorem leaves_of_leafIncomplete (h : lookup costs s context index = .error .leafIncomplete) :
    ∃ covered, s.coverage index = .ok covered ∧ s.completesLeaves index covered = false := by
  have hdecision (hrule : (ParentRule.decision ⟨s, context.last, index⟩).2
      = .error .leafIncomplete) := ParentRule.reason_of_decision hrule
  rcases refused_of_lookup h with hcoverage | ⟨covered, hcoverage, hreason⟩
  · simpa using PlanState.reason_of_coverage hcoverage
  · refine ⟨covered, hcoverage, ?_⟩
    simp_all

end Transition

/-! ## Entities by their names -/

variable {m : Model} {p : Planner α} {q : Query α} {path : List (Step α)} {t next : Transition α}

omit [Scalar α] in
/-- An index that is well formed completes the leaves that it covers. -/
theorem PlanState.completesLeaves_of_isWellFormed {s : PlanState α} {index : Index}
    {covered : List String} (hwell : index.IsWellFormed)
    (hindex : ∀ e ∈ index.graph.entities.toList, e ∈ m.entities.toList)
    (hstate : ∀ e ∈ s.graph.entities.toList, e ∈ m.entities.toList)
    (h : s.coverage index = .ok covered) : s.completesLeaves index covered = true := by
  obtain ⟨-, -, -, hcontains, -⟩ := coverage_eq_ok_iff.mp h
  refine List.all_eq_true.mpr fun leaf hleaf => ?_
  have hcovered := hcontains leaf (List.mem_filter.mp hleaf).1
  cases hentity : s.graph.entity? leaf with
  | none => rfl
  | some e =>
      obtain ⟨he, hname⟩ := JoinGraph.mem_of_entity?_eq_some hentity
      obtain ⟨e', he', hname'⟩ := List.mem_map.mp (JoinGraph.contains_iff.mp hcovered)
      -- the index means the same entity by the name, and has its identifier
      have hsame : e' = e := by
        refine SortedSet.eq_of_key_eq (hindex e' he') (hstate e he) ?_
        show [e'.name] = [e.name]
        rw [hname', hname]
      have hid : index.containsField e.id = true := by
        rw [← hsame]
        exact hwell.mem_allFields_id he'
      rw [Option.all_some, hid, Bool.true_or]

omit [Scalar α] in
theorem PlanState.mem_of_settles {s : PlanState α} {graph : JoinGraph} {joins : List String}
    (h : s.Settles graph joins) {e : Entity} (he : e ∈ s.graph.entities.toList) :
    e ∈ graph.entities.toList := by
  rcases h with ⟨hgraph, -⟩ | ⟨last, -, hgraph, -⟩
  · rwa [← hgraph]
  · rw [hgraph] at he
    exact absurd he List.not_mem_nil

namespace Planner

/-- A step brings no entities to visit. -/
theorem mem_of_follows (h : p.Follows path t next) {e : Entity}
    (he : e ∈ next.state.graph.entities.toList) : e ∈ t.state.graph.entities.toList := by
  rcases isInMemory_or_isLookup h with hmemory | ⟨index, -, covered, hlookup⟩
  · obtain ⟨-, ⟨hgraph, -⟩ | ⟨-, hsettles⟩⟩ := settles_of_inMemory h hmemory.lookedUp
    · rwa [← hgraph]
    · exact PlanState.mem_of_settles hsettles he
  · rw [hlookup.state] at he
    exact (List.mem_filter.mp
      (PlanState.mem_of_settles (t.state.settles_afterLookup index covered) he)).1

/-- What is left to visit is part of the query's graph. -/
theorem mem_of_reaches (h : p.Reaches q path t) {e : Entity}
    (he : e ∈ t.state.graph.entities.toList) : e ∈ q.graph.entities.toList :=
  holds_of_reaches (fun _ t => ∀ e ∈ t.state.graph.entities.toList, e ∈ q.graph.entities.toList)
    (fun _ he => he) (fun ht hfollows e he => ht e (mem_of_follows hfollows he)) h e he

/-- At a state that the search comes to, no index of the model leaves a leaf incomplete. -/
theorem lookup_ne_leafIncomplete (hq : ∀ e ∈ q.graph.entities.toList, e ∈ m.entities.toList)
    (h : p.Reaches q path t) {index : Index} (hwell : index.IsWellFormed)
    (hindex : ∀ e ∈ index.graph.entities.toList, e ∈ m.entities.toList) (costs : CostModel α)
    (context : LookupContext) :
    Transition.lookup costs t.state context index ≠ .error .leafIncomplete := by
  intro hrefused
  obtain ⟨covered, hcoverage, hleaves⟩ := Transition.leaves_of_leafIncomplete hrefused
  rw [PlanState.completesLeaves_of_isWellFormed hwell hindex
    (fun e he => hq e (mem_of_reaches h he)) hcoverage] at hleaves
  cases hleaves

/-! ## What the search counts -/

/-- A step in memory comes after aggregation, or has nothing to do. -/
theorem reason_of_inMemory {costs : CostModel α} {s : PlanState α} {reason : Rejection}
    (h : .error reason ∈ [Transition.filter costs s, Transition.sort costs s,
      Transition.limit costs s, Transition.aggregate costs s]) :
    reason = .aggregationIncompatible ∨ reason = .notApplicable := by
  simp only [List.mem_cons, List.not_mem_nil, or_false] at h
  rcases h with h | h | h | h
  · simp only [Transition.filter] at h
    grind
  · simp only [Transition.sort] at h
    grind
  · simp only [Transition.limit] at h
    grind
  · simp only [Transition.aggregate] at h
    grind

/-- A lookup fails where there is no room for it, where its index is used already, or where its
    checks refuse an index that has the entity at which the branch stands. -/
theorem reason_of_lookups {reason : Rejection} (h : .error reason ∈ p.lookups path t) :
    reason = .lookupLimit ∨ reason = .indexReused
      ∨ ∃ index ∈ p.pool, t.state.joins.head?.any index.graph.contains = true
        ∧ ∃ context, Transition.lookup p.costs t.state context index = .error reason := by
  simp only [lookups] at h
  split at h
  · exact .inl (Except.error.inj (List.mem_singleton.mp h))
  · obtain ⟨index, hnear, hindex⟩ := List.mem_map.mp h
    obtain ⟨hpool, hhead⟩ := List.mem_filter.mp hnear
    split at hindex
    · exact .inr (.inl (Except.error.inj hindex).symm)
    · exact .inr (.inr ⟨index, hpool, hhead, _, hindex⟩)

/-- No candidate that the search tries lacks the entity where the branch stands. -/
theorem joinHeadMissing_not_mem_attempts : .error .joinHeadMissing ∉ p.attempts path t := by
  intro h
  rcases List.mem_append.mp h with hmemory | hlookup
  · simpa using reason_of_inMemory hmemory
  · obtain ⟨index, -, hhead, context, hrefused⟩ :=
      ((reason_of_lookups hlookup).resolve_left (by simp)).resolve_left (by simp)
    rw [Transition.head_of_joinHeadMissing hrefused] at hhead
    cases hhead

/-- No candidate of the model leaves a leaf incomplete. -/
theorem leafIncomplete_not_mem_attempts (hwell : ∀ i ∈ p.pool, i.IsWellFormed)
    (hpool : ∀ i ∈ p.pool, ∀ e ∈ i.graph.entities.toList, e ∈ m.entities.toList)
    (hq : ∀ e ∈ q.graph.entities.toList, e ∈ m.entities.toList) (h : p.Reaches q path t) :
    .error .leafIncomplete ∉ p.attempts path t := by
  intro hattempt
  rcases List.mem_append.mp hattempt with hmemory | hlookup
  · simpa using reason_of_inMemory hmemory
  · obtain ⟨index, hindex, -, context, hrefused⟩ :=
      ((reason_of_lookups hlookup).resolve_left (by simp)).resolve_left (by simp)
    exact lookup_ne_leafIncomplete hq h (hwell index hindex) (hpool index hindex) p.costs context
      hrefused

omit [Scalar α] in
theorem mem_of_mem_refusals {reason : Rejection} {attempts : List (Except Rejection (Transition α))}
    (h : reason ∈ refusals attempts) : .error reason ∈ attempts := by
  obtain ⟨attempt, hattempt, hreason⟩ := List.mem_filterMap.mp h
  split at hreason
  · cases hreason
  · cases hreason
  · rwa [← Option.some.inj hreason]

/-- **WHAT IS COUNTED WAS MET**: a rejection that the search counts is that of an attempt at a
    state that it comes to. -/
theorem exists_of_mem_rejections {reason : Rejection} (length : Nat) : ∀ path t,
    p.Reaches q path t → reason ∈ (p.explore length path t).rejections →
      ∃ path' t', p.Reaches q path' t' ∧ .error reason ∈ p.attempts path' t' := by
  induction length with
  | zero =>
      intro path t _ hreason
      exact absurd hreason List.not_mem_nil
  | succ length ih =>
      intro path t h hreason
      cases hanswered : t.state.isAnswered with
      | true =>
          rw [explore, if_pos hanswered] at hreason
          exact absurd hreason List.not_mem_nil
      | false =>
          rw [explore_succ hanswered] at hreason
          rcases List.mem_append.mp hreason with hhere | hbeyond
          · exact ⟨path, t, h, mem_of_mem_refusals hhere⟩
          · obtain ⟨found, hfound, hreason⟩ := List.mem_flatMap.mp hbeyond
            obtain ⟨next, hnext, rfl⟩ := List.mem_map.mp hfound
            exact ih (next.step :: path) next (h.onward hanswered hnext) hreason

/-- A rejection that no attempt meets is not counted. -/
theorem count_search_eq_zero {reason : Rejection}
    (h : ∀ path t, p.Reaches q path t → .error reason ∉ p.attempts path t) :
    (p.search q).count reason = 0 := by
  refine List.count_eq_zero.mpr fun hcounted => ?_
  obtain ⟨path, t, hreaches, hattempt⟩ := exists_of_mem_rejections _ [] _ .start hcounted
  exact h path t hreaches hattempt

/-- **CHECKS THAT NEVER FAIL**: wherever the search for a query comes, no lookup of an index of
    the same model is refused for an incomplete leaf, whatever was looked up before; and no lookup
    that the search tries is refused for the entity where the branch stands.  Over candidates of
    the model it counts neither rejection. -/
theorem search_spares_checks {indexes : List Index} {q : Query α}
    (hbuilt : ∀ i ∈ indexes, ∃ d, Index.build d = .ok i)
    (hindexes : ∀ i ∈ indexes, ∀ e ∈ i.graph.entities.toList, e ∈ m.entities.toList)
    (hq : ∀ e ∈ q.graph.entities.toList, e ∈ m.entities.toList) (costs : CostModel α)
    (config : PlanningConfig α) :
    (∀ path t, (ofIndexes indexes costs config).Reaches q path t →
        (∀ d index, Index.build d = .ok index →
          (∀ e ∈ index.graph.entities.toList, e ∈ m.entities.toList) →
          ∀ (prices : CostModel α) context,
            Transition.lookup prices t.state context index ≠ .error .leafIncomplete)
        ∧ .error .leafIncomplete ∉ (ofIndexes indexes costs config).attempts path t
        ∧ .error .joinHeadMissing ∉ (ofIndexes indexes costs config).attempts path t)
      ∧ ((ofIndexes indexes costs config).search q).count .leafIncomplete = 0
      ∧ ((ofIndexes indexes costs config).search q).count .joinHeadMissing = 0 := by
  have hwell : ∀ i ∈ (ofIndexes indexes costs config).pool, i.IsWellFormed := by
    intro i hi
    obtain ⟨d, hd⟩ := hbuilt i (Index.mem_of_mem_pool hi)
    exact (Index.build_eq_ok_iff.mp hd).2
  have hpool : ∀ i ∈ (ofIndexes indexes costs config).pool, ∀ e ∈ i.graph.entities.toList,
      e ∈ m.entities.toList := fun i hi => hindexes i (Index.mem_of_mem_pool hi)
  refine ⟨fun path t h => ⟨?_, leafIncomplete_not_mem_attempts hwell hpool hq h,
    joinHeadMissing_not_mem_attempts⟩, count_search_eq_zero fun path t h =>
      leafIncomplete_not_mem_attempts hwell hpool hq h,
    count_search_eq_zero fun _ _ _ => joinHeadMissing_not_mem_attempts⟩
  intro d index hbuild hindex prices context
  exact lookup_ne_leafIncomplete hq h (Index.build_eq_ok_iff.mp hbuild).2 hindex prices context

/-- The search for the topics of a city counts neither rejection. -/
theorem search_spares_topic_checks :
    (∀ i ∈ [cityUsersIndex, messagesIndex], ∃ d, Index.build d = .ok i)
      ∧ (∀ i ∈ [cityUsersIndex, messagesIndex], ∀ e ∈ i.graph.entities.toList,
        e ∈ (userModel.add tweetEntity).entities.toList)
      ∧ (∀ e ∈ cityTopicsQuery.graph.entities.toList,
        e ∈ (userModel.add tweetEntity).entities.toList)
      ∧ (∀ context, Transition.lookup .requestCount (PlanState.start cityTopicsQuery) context
          messagesIndex ≠ .error .leafIncomplete)
      ∧ ((ofIndexes [cityUsersIndex, messagesIndex] .requestCount {}).search
          cityTopicsQuery).count .leafIncomplete = 0
      ∧ ((ofIndexes [cityUsersIndex, messagesIndex] .requestCount {}).search
          cityTopicsQuery).count .joinHeadMissing = 0 := by
  have hbuilt : ∀ i ∈ [cityUsersIndex, messagesIndex], ∃ d, Index.build d = .ok i :=
    List.forall_mem_cons.mpr ⟨⟨cityUsersDraft, rfl⟩,
      List.forall_mem_singleton.mpr ⟨messagesDraft, rfl⟩⟩
  have huser : userEntity ∈ (userModel.add tweetEntity).entities.toList :=
    List.mem_cons_of_mem _ List.mem_cons_self
  have hjoined : ∀ e ∈ userTweets.entities.toList,
      e ∈ (userModel.add tweetEntity).entities.toList :=
    List.forall_mem_cons.mpr ⟨List.mem_cons_self, List.forall_mem_singleton.mpr huser⟩
  have hindexes : ∀ i ∈ [cityUsersIndex, messagesIndex], ∀ e ∈ i.graph.entities.toList,
      e ∈ (userModel.add tweetEntity).entities.toList :=
    List.forall_mem_cons.mpr ⟨List.forall_mem_singleton.mpr huser,
      List.forall_mem_singleton.mpr hjoined⟩
  obtain ⟨hreached, hcounts⟩ :=
    search_spares_checks hbuilt hindexes (q := cityTopicsQuery) hjoined .requestCount {}
  refine ⟨hbuilt, hindexes, hjoined, fun context => ?_, hcounts⟩
  exact (hreached [] _ .start).1 messagesDraft messagesIndex rfl hjoined .requestCount context

end Planner

end IndexDesign
