import IndexDesign.Proofs.Plan.Enumeration

/-! # What the search comes to, and that it ends

    The search comes to the start of a query and, from every state that is not
    answered, to all that it goes on with; branches that are dropped later are
    among them.  What every step carries on therefore holds wherever it comes.

    No single number falls along a branch: a lookup brings fields that make a
    filter apply again, and it may bring more rows.  But every step takes room,
    so a branch is no longer than there is room at its start: a lookup for each
    candidate, a filter for each condition, a sort, a limit and an aggregation.

    The search is written with a bound on its depth that is one step larger.
    So the bound is never met, and what is found is what the search would find
    without it. -/

namespace IndexDesign

variable {α : Type}

namespace Planner

variable [Scalar α]

/-- The search for a query comes to the transition by the steps of `path`, the latest first. -/
inductive Reaches (p : Planner α) (q : Query α) : List (Step α) → Transition α → Prop where
  | start : Reaches p q [] (Transition.start q)
  /-- From a state that is not answered it goes on. -/
  | onward {path : List (Step α)} {t next : Transition α} (h : Reaches p q path t)
      (hopen : t.state.isAnswered = false) (hnext : next ∈ p.successors path t) :
      Reaches p q (next.step :: path) next

/-- What is found beyond a transition that is not answered, from what is found beyond each of its
    successors. -/
def gathered (p : Planner α) (path : List (Step α)) (t : Transition α)
    (beyond : Transition α → Explored α) : Explored α :=
  let found := (p.successors path t).map fun next => (next, beyond next)
  { branches := join found
    expanded := 1 + (found.map (·.2.expanded)).sum
    rejections := refusals (p.attempts path t) ++ found.flatMap (·.2.rejections) }

/-- What a search without a bound finds beyond a transition. -/
inductive Finds (p : Planner α) : List (Step α) → Transition α → Explored α → Prop where
  | answered {path : List (Step α)} {t : Transition α} (h : t.state.isAnswered = true) :
      Finds p path t ⟨.empty, 0, []⟩
  | onward {path : List (Step α)} {t : Transition α} (hopen : t.state.isAnswered = false)
      (beyond : Transition α → Explored α)
      (hbeyond : ∀ next ∈ p.successors path t, Finds p (next.step :: path) next (beyond next)) :
      Finds p path t (p.gathered path t beyond)

variable {p : Planner α} {q : Query α} {path : List (Step α)} {t next : Transition α}

/-! ## What holds wherever the search comes -/

/-- **INVARIANTS OF THE SEARCH**: what holds at the start and is carried on by every step holds
    wherever the search comes. -/
theorem holds_of_reaches (holds : List (Step α) → Transition α → Prop)
    (hstart : holds [] (Transition.start q))
    (hstep : ∀ {path t next}, holds path t → p.Follows path t next →
      holds (next.step :: path) next) (h : p.Reaches q path t) : holds path t := by
  induction h with
  | start => exact hstart
  | onward _ _ hnext ih => exact hstep ih (follows_of_mem_successors hnext)

/-! ## Branches are bounded -/

/-- Whatever the search goes on with takes room. -/
theorem room_lt_of_mem_successors [Scalar.CountsCompare α] (h : next ∈ p.successors path t) :
    p.room (next.step :: path) next.state < p.room path t.state := by
  rcases mem_successors_iff.mp h with h | h | h | h | h
  · exact room_filter_lt h
  · exact room_sort_lt h
  · exact room_limit_lt h
  · exact room_aggregate_lt h
  -- candidates are told apart by their keys here, so no luck with keys is needed
  · obtain ⟨-, index, hpool, -, hunused, hok⟩ := mem_lookups_iff.mp h
    exact room_lookup_lt hpool hunused hok

/-- The steps of a branch have used up the room that is missing at its end. -/
theorem length_add_room_le [Scalar.CountsCompare α] (h : p.Reaches q path t) :
    path.length + p.room path t.state ≤ p.room [] (PlanState.start q) := by
  induction h with
  | start => exact (Nat.zero_add _).le
  | onward _ _ hnext ih =>
      have hlt := room_lt_of_mem_successors hnext
      rw [List.length_cons]
      omega

/-! ## The bound on the depth is never met -/

theorem explore_succ (hopen : t.state.isAnswered = false) (length : Nat) :
    p.explore (length + 1) path t
      = p.gathered path t fun next => p.explore length (next.step :: path) next := by
  rw [explore, if_neg (Bool.eq_false_iff.mp hopen)]
  rfl

/-- With more depth than there is room, the search finds what it would find without a bound. -/
theorem finds_explore [Scalar.CountsCompare α] (length : Nat) : ∀ path (t : Transition α),
    p.room path t.state < length → p.Finds path t (p.explore length path t) := by
  induction length with
  | zero => intro path t hroom; omega
  | succ length ih =>
      intro path t hroom
      cases hanswered : t.state.isAnswered with
      | true =>
          rw [explore, if_pos hanswered]
          exact .answered hanswered
      | false =>
          rw [explore_succ hanswered]
          refine .onward hanswered _ fun next hnext => ih _ next ?_
          have hlt := room_lt_of_mem_successors hnext
          omega

/-- A search without a bound finds one thing only. -/
theorem Finds.eq {found other : Explored α} (h : p.Finds path t found)
    (h' : p.Finds path t other) : found = other := by
  induction h generalizing other with
  | answered hanswered =>
      cases h' with
      | answered => rfl
      | onward hopen => rw [hanswered] at hopen; cases hopen
  | onward hopen beyond _ ih =>
      cases h' with
      | answered hanswered => rw [hanswered] at hopen; cases hopen
      | onward _ beyond' hbeyond' =>
          have hfound : (p.successors _ _).map (fun next => (next, beyond next))
              = (p.successors _ _).map fun next => (next, beyond' next) :=
            List.map_congr_left fun next hnext => by rw [ih next hnext (hbeyond' next hnext)]
          simp only [gathered, hfound]

/-- **THE SEARCH ENDS**: without its bound on the depth it would find, beyond the start of a
    query, one thing and the same; and no branch that it comes to has more steps than there are
    different candidates and conditions, and three more. -/
theorem search_ends [Scalar.CountsCompare α] (indexes : List Index) (costs : CostModel α)
    (config : PlanningConfig α) (q : Query α) :
    (∃ found, (ofIndexes indexes costs config).Finds [] (Transition.start q) found
        ∧ (∀ other, (ofIndexes indexes costs config).Finds [] (Transition.start q) other →
            other = found)
        ∧ (ofIndexes indexes costs config).search q
          = ⟨Transition.start q, found.branches, found.expanded, found.rejections⟩)
      ∧ ∀ path t, (ofIndexes indexes costs config).Reaches q path t →
          path.length
            ≤ (indexes.map (·.descriptor)).dedup.length + q.eq.size + q.range.size + 3 := by
  generalize hp : ofIndexes indexes costs config = p
  have hlt := p.room_start_lt q
  constructor
  · have hfinds := finds_explore (p := p) (p.branchLength q) [] (Transition.start q) hlt
    exact ⟨_, hfinds, fun other hother => hother.eq hfinds, rfl⟩
  · intro path t hreaches
    have hle := length_add_room_le hreaches
    have hpool : p.pool.length = (indexes.map (·.descriptor)).dedup.length := by
      rw [← hp]
      exact Index.length_pool indexes
    rw [branchLength, hpool] at hlt
    omega

/-- For the names of a city the search goes two steps deep, and could not go beyond six. -/
theorem search_ends_names :
    Scalar.CountsCompare Rat
      ∧ (∃ found, (ofIndexes [cityIndex] (.requestCount : CostModel Rat) {}).Finds []
          (Transition.start namesQuery) found)
      ∧ ∃ path t, (ofIndexes [cityIndex] (.requestCount : CostModel Rat) {}).Reaches namesQuery
          path t ∧ path.length = 2 ∧ path.length ≤ 6 := by
  obtain ⟨⟨found, hfound, -⟩, hbound⟩ :=
    search_ends [cityIndex] (.requestCount : CostModel Rat) {} namesQuery
  generalize hp : ofIndexes [cityIndex] (.requestCount : CostModel Rat) {} = p at hfound hbound ⊢
  have hopen : (Transition.start namesQuery).state.isAnswered = false := by decide +kernel
  have hdeep : ((p.successors [] (Transition.start namesQuery)).any fun first =>
      !first.state.isAnswered && !(p.successors [first.step] first).isEmpty) = true := by
    rw [← hp]
    decide +kernel
  obtain ⟨first, hfirst, hnext⟩ := List.any_eq_true.mp hdeep
  rw [Bool.and_eq_true, Bool.not_eq_true', Bool.not_eq_true', List.isEmpty_eq_false_iff] at hnext
  obtain ⟨second, hsecond⟩ := List.exists_mem_of_ne_nil _ hnext.2
  have hreaches : p.Reaches namesQuery [second.step, first.step] second :=
    .onward (.onward .start hopen hfirst) hnext.1 hsecond
  refine ⟨inferInstance, ⟨found, hfound⟩, _, _, hreaches, rfl, (hbound _ _ hreaches).trans ?_⟩
  decide +kernel

end Planner

end IndexDesign
