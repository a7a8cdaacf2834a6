import IndexDesign.Proofs.Plan.Joins
import IndexDesign.Proofs.Plan.Reached
import IndexDesign.Proofs.Statement.Plannable

/-! # The work that is left on a branch

    A state has several parts, and each is what the query and the steps so far
    make of it: what is left to fetch is what is required and not fetched, what
    is fetched is stored by the indexes that were looked up, and conditions,
    grouping and order only get less.

    A branch walks along the join order.  What is left to visit is the rest of
    the order from where the branch stands, with the joins within it.  Work is
    not left behind on the way: a field to fetch lies ahead, and a condition
    lies ahead or is on a field that is at hand.  An index that passes over an
    entity has the fields that are needed of it; on the last entity that it
    covers, it may leave them to the next lookup.  The branch then stands
    there, and does not leave before the entity is needed no more. -/

namespace IndexDesign

variable {α : Type}

namespace PlanState

/-- The fields under conditions that are left, and those of the order. -/
def conditions (s : PlanState α) : List Field := s.eq.toList ++ s.range.toList ++ s.orderBy

/-- What the state keeps of the work of the query, after the steps: its parts are those of the
    query, as far as nothing has taken them out. -/
structure KeepsWork (q : Query α) (steps : List (Step α)) (s : PlanState α) : Prop
    extends s.Tracks q steps where
  fields : s.fields = q.required.diff s.fetched
  range : ∀ f ∈ s.range, f ∈ q.range
  groupBy : ∀ f ∈ s.groupBy, f ∈ q.groupBy
  aggregates : ∀ a ∈ s.aggregates, a ∈ q.aggregates

/-- Where the branch stands: nothing is left to visit, or the end of the join order from some
    entity on, as the query joins it. -/
def IsOnOrder (q : Query α) (s : PlanState α) : Prop :=
  s.joins = [] ∧ s.graph = ∅
    ∨ s.joins ≠ [] ∧ s.joins <:+ q.joinOrder ∧ s.graph = q.graph.subgraph s.joins

/-- No work is left behind. -/
structure KeepsAhead (q : Query α) (s : PlanState α) : Prop where
  place : s.IsOnOrder q
  fields : ∀ f ∈ s.fields.toList, f.entity ∈ s.joins
  conditions : ∀ f ∈ s.conditions, f.entity ∈ s.joins ∨ IsAtHand s.fetched f

variable {q : Query α} {steps : List (Step α)} {s t : PlanState α}

theorem isOnOrder_iff :
    s.IsOnOrder q ↔ s.joins <:+ q.joinOrder ∧ s.graph = q.graph.subgraph s.joins := by
  constructor
  · rintro (⟨hjoins, hgraph⟩ | ⟨-, hsuffix, hgraph⟩)
    · rw [hjoins, hgraph, JoinGraph.subgraph_nil]
      exact ⟨List.nil_suffix, rfl⟩
    · exact ⟨hsuffix, hgraph⟩
  · rintro ⟨hsuffix, hgraph⟩
    by_cases hjoins : s.joins = []
    · refine .inl ⟨hjoins, ?_⟩
      rw [hgraph, hjoins, JoinGraph.subgraph_nil]
    · exact .inr ⟨hjoins, hsuffix, hgraph⟩

theorem isReachable_iff {f : Field} : s.isReachable f = true ↔ IsAtHand s.fetched f := by
  rw [isReachable, Bool.or_eq_true, Bool.and_eq_true, List.any_eq_true, IsAtHand]
  simp only [beq_iff_eq]
  rfl

/-- What is at hand stays at hand when more is fetched. -/
theorem isAtHand_union {fetched more : FieldSet} {f : Field} (h : IsAtHand fetched f) :
    IsAtHand (fetched.union more) f := by
  rcases h with h | ⟨hid, g, hg, htarget⟩
  · exact .inl (SortedSet.mem_union.mpr (.inl h))
  · exact .inr ⟨hid, g, SortedSet.mem_toList_extend_of_mem hg, htarget⟩

theorem mem_conditions {f : Field} :
    f ∈ s.conditions ↔ f ∈ s.eq.toList ∨ f ∈ s.range.toList ∨ f ∈ s.orderBy := by
  rw [conditions, List.mem_append, List.mem_append, or_assoc]

/-- Taking out conditions, or the order, brings no others in. -/
theorem mem_conditions_of_diff {eq range : FieldSet} (heq : t.eq = s.eq.diff eq)
    (hrange : t.range = s.range.diff range) (horder : t.orderBy = [] ∨ t.orderBy = s.orderBy) :
    ∀ f ∈ t.conditions, f ∈ s.conditions := by
  intro f hf
  refine mem_conditions.mpr ((mem_conditions.mp hf).imp ?_ (Or.imp ?_ ?_))
  · rw [heq]
    exact fun hf => (List.mem_filter.mp hf).1
  · rw [hrange]
    exact fun hf => (List.mem_filter.mp hf).1
  · rcases horder with hnil | hsame
    · rw [hnil]
      exact fun hf => nomatch hf
    · rw [hsame]
      exact id

/-! ## Settling -/

/-- A state with the same place, fields to fetch and fetched fields and no other conditions leaves
    nothing behind either. -/
theorem KeepsAhead.of_conditions (h : s.KeepsAhead q) (hjoins : t.joins = s.joins)
    (hgraph : t.graph = s.graph) (hfields : t.fields = s.fields) (hfetched : t.fetched = s.fetched)
    (hconditions : ∀ f ∈ t.conditions, f ∈ s.conditions) : t.KeepsAhead q := by
  refine ⟨?_, ?_, fun f hf => ?_⟩
  · rw [IsOnOrder, hjoins, hgraph]
    exact h.place
  · rw [hfields, hjoins]
    exact h.fields
  · rw [hjoins, hfetched]
    exact h.conditions f (hconditions f hf)

/-- The last entity is left when it is needed no more, and so nothing is left behind. -/
theorem keepsAhead_settleGraph (h : s.KeepsAhead q) : s.settleGraph.KeepsAhead q := by
  simp only [settleGraph]
  split
  · next last hjoins =>
    split
    · exact h
    · next hneeds =>
      rw [needs, Bool.or_eq_true, not_or, List.any_eq_true, List.any_eq_true] at hneeds
      obtain ⟨hfields, hconditions⟩ := hneeds
      refine ⟨.inl ⟨rfl, rfl⟩, fun f hf => ?_, fun f hf => .inr ?_⟩
      · have hlast := h.fields f hf
        rw [hjoins, List.mem_singleton] at hlast
        exact absurd ⟨f, hf, beq_iff_eq.mpr hlast⟩ hfields
      · rcases h.conditions f hf with hlast | hhand
        · rw [hjoins, List.mem_singleton] at hlast
          by_contra hnot
          refine hconditions ⟨f, hf, ?_⟩
          rw [Bool.and_eq_true, beq_iff_eq, Bool.not_eq_true', Bool.eq_false_iff]
          exact ⟨hlast, fun hreachable => hnot (isReachable_iff.mp hreachable)⟩
        · exact hhand
  · exact h

theorem keepsAhead_settleLimit [Scalar α] (h : s.KeepsAhead q) : s.settleLimit.KeepsAhead q := by
  obtain ⟨rows, hrows⟩ := settleLimit_eq s
  rw [hrows]
  exact h.of_conditions rfl rfl rfl rfl fun _ hf => hf

/-! ## Lookups -/

/-- What an index passes over, it has as far as it is needed. -/
theorem containsField_of_interior {index : Index} {interior : List String} {last : String}
    (hlocal : s.hasLocalFields index (interior ++ [last]) = true) (hlast : last ∉ interior)
    {f : Field} (hentity : f.entity ∈ interior) :
    (f ∈ s.fields.toList → index.containsField f = true)
      ∧ (f ∈ s.conditions → s.isReachable f = true ∨ index.containsField f = true) := by
  have hcovered : (interior ++ [last]).contains f.entity = true :=
    List.contains_iff_mem.mpr (List.mem_append_left _ hentity)
  have hother : (some last == some f.entity) = false := by
    rw [beq_eq_false_iff_ne]
    intro heq
    exact hlast (Option.some.inj heq ▸ hentity)
  rw [hasLocalFields, Bool.and_eq_true, List.all_eq_true, List.all_eq_true] at hlocal
  constructor
  · intro hf
    have hfield := hlocal.2 f hf
    rwa [hcovered, List.getLast?_concat, hother, Bool.and_false, Bool.not_true, Bool.or_false,
      Bool.false_or] at hfield
  · intro hf
    have hcondition := hlocal.1 f hf
    rwa [hcovered, Bool.not_true, Bool.false_or, Bool.or_eq_true] at hcondition

/-- **NOTHING IS LEFT BEHIND BY A LOOKUP**: not on the entities that the branch passes. -/
theorem keepsAhead_narrowed [Scalar α] (hclosed : q.graph.IsClosed) (hnodup : q.joinOrder.Nodup)
    (h : s.KeepsAhead q) {index : Index} {covered : List String}
    (hcoverage : s.coverage index = .ok covered)
    (hlocal : s.hasLocalFields index covered = true) :
    (s.narrowed index covered).KeepsAhead q := by
  obtain ⟨interior, last, rest, rfl, hjoins⟩ := exists_split_of_coverage hcoverage
  obtain ⟨hsuffix, hgraph⟩ := isOnOrder_iff.mp h.place
  rw [hjoins] at hsuffix hgraph
  obtain ⟨-, -, hdisjoint⟩ := List.nodup_append.mp (hnodup.sublist hsuffix.sublist)
  have hlast : last ∉ interior := fun hmem => hdisjoint last hmem last List.mem_cons_self rfl
  -- the branch stands at the last of the entities that are covered
  have hnext : (s.narrowed index (interior ++ [last])).joins = last :: rest := by
    show s.joins.drop _ = _
    rw [hjoins, List.length_append, List.length_singleton, Nat.add_sub_cancel, List.drop_left]
  have hfetched : (s.narrowed index (interior ++ [last])).fetched
      = s.fetched.union index.allFields := rfl
  refine ⟨isOnOrder_iff.mpr ⟨?_, ?_⟩, fun f hf => ?_, fun f hf => ?_⟩
  · rw [hnext]
    exact (List.suffix_append interior _).trans hsuffix
  · rw [hnext]
    show s.graph.without _ = _
    rw [hgraph, List.dropLast_concat, hclosed.without_subgraph]
    exact fun v hv hmem => hdisjoint v hmem v hv rfl
  · rw [hnext]
    obtain ⟨hf, hbrought⟩ := List.mem_filter.mp hf
    have hentity := h.fields f hf
    rw [hjoins] at hentity
    refine (List.mem_append.mp hentity).resolve_left fun hmem => ?_
    have hcontains : index.allFields.contains f = true :=
      (containsField_of_interior hlocal hlast hmem).1 hf
    rw [hcontains] at hbrought
    exact nomatch hbrought
  · rw [hnext, hfetched]
    have hcondition : f ∈ s.conditions :=
      mem_conditions_of_diff rfl rfl (ite_eq_or_eq _ _ _) f hf
    rcases h.conditions f hcondition with hentity | hhand
    · rw [hjoins] at hentity
      rcases List.mem_append.mp hentity with hmem | hmem
      · rcases (containsField_of_interior hlocal hlast hmem).2 hcondition with hreach | hcontains
        · exact .inr (isAtHand_union (isReachable_iff.mp hreach))
        · exact .inr (.inl (SortedSet.mem_union.mpr (.inr hcontains)))
      · exact .inl hmem
    · exact .inr (isAtHand_union hhand)

end PlanState

namespace Planner

variable [Scalar α] {p : Planner α} {q : Query α} {path steps : List (Step α)}
  {t next : Transition α}

/-! ## Steps -/

/-- Every step carries on what a state keeps of the work. -/
theorem keepsWork_of_follows (ht : t.state.KeepsWork q steps) (h : p.Follows path t next) :
    next.state.KeepsWork q (steps ++ [next.step]) := by
  have hgroupBy : ∀ f ∈ next.state.groupBy, f ∈ q.groupBy := fun f hf =>
    ht.groupBy f ((keepsRules_of_follows h).groupBy f hf)
  rcases isInMemory_or_isLookup h with hmemory | ⟨index, -, covered, hlookup⟩
  · refine ⟨tracks_of_follows ht.toTracks h, ?_, fun f hf => ht.range f (hmemory.range f hf),
      hgroupBy, fun a ha => ht.aggregates a (hmemory.aggregates a ha)⟩
    rw [hmemory.fields, hmemory.fetched, ht.fields]
  · obtain ⟨graph, joins, rows, lookups, hafter⟩ := t.state.afterLookup_eq index covered
    have hstate := hlookup.state.trans hafter
    refine ⟨tracks_of_follows ht.toTracks h, ?_, fun f hf => ht.range f ?_, hgroupBy,
      fun a ha => ht.aggregates a ?_⟩
    · rw [hstate]
      show t.state.fields.diff _ = _
      rw [ht.fields, SortedSet.diff_diff]
    · rw [hstate] at hf
      exact (SortedSet.mem_diff.mp hf).1
    · rw [hstate] at ha
      dsimp only at ha
      split at ha
      · exact (SortedSet.mem_diff.mp ha).1
      · exact ha

/-- **STEPS LEAVE NO WORK BEHIND**. -/
theorem keepsAhead_of_follows (hclosed : q.graph.IsClosed) (hnodup : q.joinOrder.Nodup)
    (ht : t.state.KeepsAhead q) (h : p.Follows path t next) : next.state.KeepsAhead q := by
  cases h with
  | filter h =>
      obtain ⟨rows, hstate⟩ := Transition.state_of_filter h
      rw [hstate]
      exact PlanState.keepsAhead_settleGraph (ht.of_conditions rfl rfl rfl rfl
        (PlanState.mem_conditions_of_diff rfl rfl (.inr rfl)))
  | sort h =>
      obtain ⟨-, -, -, -, -, hstate⟩ := Transition.sort_spec h
      rw [hstate]
      exact ht.of_conditions rfl rfl rfl rfl (PlanState.mem_conditions_of_diff
        (SortedSet.diff_empty _).symm (SortedSet.diff_empty _).symm (.inl rfl))
  | limit h =>
      obtain ⟨-, limit, -, -, -, -, hstate⟩ := Transition.limit_spec h
      rw [hstate]
      exact ht.of_conditions rfl rfl rfl rfl fun _ hf => hf
  | aggregate h =>
      obtain ⟨-, -, -, -, rows, hstate⟩ := Transition.aggregate_spec h
      rw [hstate]
      exact ht.of_conditions rfl rfl rfl rfl fun _ hf => hf
  | lookup index _ _ _ h =>
      obtain ⟨covered, hlookup⟩ := Transition.lookup_spec h
      rw [hlookup.state, PlanState.afterLookup_eq_settle]
      exact PlanState.keepsAhead_settleLimit (PlanState.keepsAhead_settleGraph
        (PlanState.keepsAhead_narrowed hclosed hnodup ht hlookup.coverage hlookup.localFields))

/-! ## States that the search comes to -/

/-- At the start all the work is ahead. -/
theorem keepsAhead_start (hq : q.IsPlannable) (hjoins : q.joinOrder.Perm q.graph.names) :
    (PlanState.start q).KeepsAhead q := by
  refine ⟨PlanState.isOnOrder_iff.mpr ⟨List.suffix_rfl, ?_⟩, fun f hf => ?_, fun f hf => .inl ?_⟩
  · exact (hq.closed.subgraph_eq_self fun v hv => hjoins.mem_iff.mpr hv).symm
  · exact hjoins.mem_iff.mpr (hq.onGraph f (Query.mem_named_of_mem_required hf))
  · refine hjoins.mem_iff.mpr (hq.onGraph f ?_)
    rcases PlanState.mem_conditions.mp hf with hf | hf | hf
    · exact Query.mem_named_of_mem_eq hf
    · exact Query.mem_named_of_mem_range hf
    · exact Query.mem_named_of_mem_orderBy hf

theorem keepsWork_start (q : Query α) : (PlanState.start q).KeepsWork q [] :=
  ⟨tracks_start q, (SortedSet.diff_empty _).symm, fun _ hf => hf, fun _ hf => hf, fun _ ha => ha⟩

/-- **THE STATES OF THE SEARCH**: where the join order of a query lists each entity of its graph
    once, every state that the search comes to keeps the work of the query and leaves none of it
    behind. -/
theorem state_of_reaches (p : Planner α) (hq : q.IsPlannable)
    (hjoins : q.joinOrder.Perm q.graph.names) (h : p.Reaches q path t) :
    t.state.KeepsWork q path.reverse ∧ t.state.KeepsAhead q := by
  have hnodup : q.joinOrder.Nodup := hjoins.nodup_iff.mpr q.graph.nodup_names
  refine holds_of_reaches (fun path t => t.state.KeepsWork q path.reverse ∧ t.state.KeepsAhead q)
    ⟨keepsWork_start q, keepsAhead_start hq hjoins⟩ ?_ h
  rintro path t next ⟨hwork, hahead⟩ hfollows
  rw [List.reverse_cons]
  exact ⟨keepsWork_of_follows hwork hfollows,
    keepsAhead_of_follows hq.closed hnodup hahead hfollows⟩

/-- When the users of a city are counted, the topic of their messages is left, and ahead. -/
theorem state_of_reaches_topic :
    topicQuery.IsPlannable
      ∧ topicQuery.joinOrder.Perm topicQuery.graph.names
      ∧ ∃ path t, topicPlanner.Reaches topicQuery path t
        ∧ path.length = 1 ∧ tweetTopic ∈ t.state.eq
        ∧ t.state.KeepsWork topicQuery path.reverse ∧ t.state.KeepsAhead topicQuery := by
  have hbuild : Query.build (userModel.add tweetEntity) topicDraft = .ok topicQuery := rfl
  have hplannable := Query.isPlannable_of_build hbuild
  have hjoins : topicQuery.joinOrder.Perm topicQuery.graph.names := by decide +kernel
  have hfirst : ((topicPlanner.successors [] (Transition.start topicQuery)).any
      (·.state.eq.contains tweetTopic)) = true := by decide +kernel
  obtain ⟨t, hnext, htopic⟩ := List.any_eq_true.mp hfirst
  have hreaches : topicPlanner.Reaches topicQuery [t.step] t :=
    .onward .start (not_isAnswered_start hbuild) hnext
  exact ⟨hplannable, hjoins, _, t, hreaches, rfl, htopic,
    state_of_reaches topicPlanner hplannable hjoins hreaches⟩

end Planner

end IndexDesign
