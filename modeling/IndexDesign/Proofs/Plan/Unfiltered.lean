import IndexDesign.Proofs.Plan.Runs

/-! # Runs without filters

    A run that does not filter looks indexes up until there is nothing more to
    visit and works in memory from there on.  Then at most one step applies: a
    sort while there is an order, otherwise a limit or an aggregation, as the
    rows are above the limit or within it.

    So such a run is determined by the indexes that it looks up.  Two of them
    that take the same steps up to a lookup of the same index are in the same
    state behind it, and where nothing is left to visit they end the same. -/

namespace IndexDesign

variable {α : Type}

/-- No transition filters. -/
def IsUnfiltered (run : List (Transition α)) : Prop := ∀ next ∈ run, next.step.isFilter = false

theorem isUnfiltered_cons {next : Transition α} {rest : List (Transition α)} :
    IsUnfiltered (next :: rest) ↔ next.step.isFilter = false ∧ IsUnfiltered rest :=
  List.forall_mem_cons

namespace Planner

variable [Scalar α] {p : Planner α} {path : List (Step α)} {t next a b : Transition α}

/-- The step in memory that applies where there is nothing more to visit and no condition is
    left. -/
def completion (costs : CostModel α) (s : PlanState α) : Except Rejection (Transition α) :=
  if s.orderBy = [] then
    if s.withinLimit then Transition.aggregate costs s else Transition.limit costs s
  else Transition.sort costs s

theorem completion_of_follows (h : p.Follows path t next) (hmemory : next.step.lookedUp? = none)
    (hfilter : next.step.isFilter = false) : completion p.costs t.state = .ok next := by
  simp only [completion]
  cases h with
  | filter h =>
      rw [Transition.isFilter_filter h] at hfilter
      exact nomatch hfilter
  | sort h =>
      rw [if_neg (Transition.sort_spec h).2.1]
      exact h
  | limit h =>
      obtain ⟨-, limit, -, hwithin, hanswered, -, -⟩ := Transition.limit_spec h
      rw [if_pos ((PlanState.isDone_of_isAnsweredFor hanswered).order rfl), hwithin,
        if_neg Bool.false_ne_true]
      exact h
  | aggregate h =>
      obtain ⟨-, -, hanswered, -, -⟩ := Transition.aggregate_spec h
      have hdone := PlanState.isDone_of_isAnsweredFor hanswered
      rw [if_pos (hdone.order rfl), if_pos (hdone.limit rfl)]
      exact h
  | lookup index _ _ _ h =>
      obtain ⟨covered, hlookup⟩ := Transition.lookup_spec h
      rw [hlookup.lookedUp] at hmemory
      exact nomatch hmemory

/-- Lookups of one candidate from one transition lead to the same. -/
theorem eq_of_follows_lookup (hnodup : (p.pool.map (·.key)).Nodup) (ha : p.Follows path t a)
    (hb : p.Follows path t b) {i j : Index} (hi : a.step.lookedUp? = some i)
    (hj : b.step.lookedUp? = some j) (hkey : i.key = j.key) : a = b := by
  have hlookup : ∀ {x : Transition α} {k : Index}, p.Follows path t x →
      x.step.lookedUp? = some k → k ∈ p.pool ∧ Transition.lookup p.costs t.state
        ⟨path.findSome? (·.lookedUp?), t.step.isAggregating⟩ k = .ok x := by
    intro x k hx hk
    cases hx with
    | filter h => rw [(Transition.isInMemory_filter h).lookedUp] at hk; exact nomatch hk
    | sort h => rw [(Transition.isInMemory_sort h).lookedUp] at hk; exact nomatch hk
    | limit h => rw [(Transition.isInMemory_limit h).lookedUp] at hk; exact nomatch hk
    | aggregate h => rw [(Transition.isInMemory_aggregate h).lookedUp] at hk; exact nomatch hk
    | lookup index hpool _ _ h =>
        obtain ⟨covered, hspec⟩ := Transition.lookup_spec h
        rw [hspec.lookedUp] at hk
        rw [← Option.some.inj hk]
        exact ⟨hpool, h⟩
  obtain ⟨hipool, hia⟩ := hlookup ha hi
  obtain ⟨hjpool, hjb⟩ := hlookup hb hj
  have hij : i = j := List.inj_on_of_nodup_map hnodup hipool hjpool hkey
  rw [hij, hjb] at hia
  exact (Except.ok.inj hia).symm

/-- **UNFILTERED STEPS ARE DETERMINED**: two steps that do not filter go on from one transition
    to the same, if they look up the same index where both look one up. -/
theorem eq_of_follows (hnodup : (p.pool.map (·.key)).Nodup) (ha : p.Follows path t a)
    (hb : p.Follows path t b) (hfa : a.step.isFilter = false) (hfb : b.step.isFilter = false)
    (hkey : ∀ i, a.step.lookedUp? = some i → ∀ j, b.step.lookedUp? = some j → i.key = j.key) :
    a = b := by
  cases hi : a.step.lookedUp? with
  | some i =>
      cases hj : b.step.lookedUp? with
      | some j => exact eq_of_follows_lookup hnodup ha hb hi hj (hkey i hi j hj)
      | none =>
          rw [not_lookup_of_joins_nil (joins_of_follows hb hj hfb).1 ha] at hi
          exact nomatch hi
  | none =>
      have hjoins := (joins_of_follows ha hi hfa).1
      have hj := not_lookup_of_joins_nil hjoins hb
      have hcompletion := completion_of_follows ha hi hfa
      rw [completion_of_follows hb hj hfb] at hcompletion
      exact (Except.ok.inj hcompletion).symm

/-- Where there is nothing more to visit, a run that does not filter ends in one way only. -/
theorem eq_of_isRun (hnodup : (p.pool.map (·.key)).Nodup) (run : List (Transition α)) :
    ∀ run' path t, p.IsRun path t run → p.IsRun path t run' → IsUnfiltered run →
      IsUnfiltered run' → t.state.joins = [] → run = run' := by
  induction run with
  | nil =>
      intro run' path t hrun hrun' _ _ _
      cases run' with
      | nil => rfl
      | cons next rest =>
          have hanswered : t.state.isAnswered = true := hrun
          rw [hrun'.1] at hanswered
          exact nomatch hanswered
  | cons next rest ih =>
      intro run' path t hrun hrun' hfree hfree' hjoins
      obtain ⟨hopen, hfollows, hrest⟩ := hrun
      cases run' with
      | nil =>
          have hanswered : t.state.isAnswered = true := hrun'
          rw [hopen] at hanswered
          exact nomatch hanswered
      | cons next' rest' =>
          obtain ⟨-, hfollows', hrest'⟩ := hrun'
          obtain ⟨hnext, hrestFree⟩ := isUnfiltered_cons.mp hfree
          obtain ⟨hnext', hrestFree'⟩ := isUnfiltered_cons.mp hfree'
          have hnone := not_lookup_of_joins_nil hjoins hfollows
          have heq : next = next' := by
            refine eq_of_follows hnodup hfollows hfollows' hnext hnext' ?_
            intro i hi
            rw [hnone] at hi
            exact nomatch hi
          subst heq
          rw [ih rest' _ next hrest hrest' hrestFree hrestFree'
            (joins_of_follows hfollows hnone hnext).2]

/-- Steps that are equal look up indexes of one key. -/
theorem key_eq_of_beq {x y : Step α} (h : (x == y) = true) :
    ∀ i, x.lookedUp? = some i → ∀ j, y.lookedUp? = some j → i.key = j.key := by
  intro i hi j hj
  have hkind : Step.sameKind x.kind y.kind = true := by
    have hall : (Step.sameKind x.kind y.kind && x.cost == y.cost && x.rows == y.rows) = true := h
    rw [Bool.and_eq_true, Bool.and_eq_true] at hall
    exact hall.1.1
  simp only [Step.lookedUp?] at hi hj
  split at hi
  · next index lookups hx =>
    split at hj
    · next index' lookups' hy =>
      rw [hx, hy, Step.sameKind, Bool.and_eq_true] at hkind
      rw [← Option.some.inj hi, ← Option.some.inj hj]
      exact Index.key_eq_of_descriptor_eq (eq_of_beq hkind.1)
    · cases hj
  · cases hi

/-- **SAME STEPS, SAME STATE**: two runs that do not filter and take the same steps up to lookups
    of one key are the same up to there, and to their ends where nothing is left to visit. -/
theorem eq_of_same_steps (hnodup : (p.pool.map (·.key)).Nodup) {after after' : List (Transition α)}
    {i j : Index} (before : List (Transition α)) :
    ∀ before' path t, p.IsRun path t (before ++ a :: after) →
      p.IsRun path t (before' ++ b :: after') → IsUnfiltered (before ++ a :: after) →
      IsUnfiltered (before' ++ b :: after') →
      (before.map (·.step) == before'.map (·.step)) = true → a.step.lookedUp? = some i →
      b.step.lookedUp? = some j → i.key = j.key →
      a = b ∧ (a.state.joins = [] → after = after') := by
  induction before with
  | nil =>
      intro before' path t hrun hrun' hfree hfree' hsame hi hj hkey
      cases before' with
      | cons first before' => exact nomatch hsame
      | nil =>
          obtain ⟨-, hfollows, hrest⟩ := hrun
          obtain ⟨-, hfollows', hrest'⟩ := hrun'
          have hab := eq_of_follows_lookup hnodup hfollows hfollows' hi hj hkey
          subst hab
          refine ⟨rfl, fun hjoins => ?_⟩
          exact eq_of_isRun hnodup after after' _ a hrest hrest' (isUnfiltered_cons.mp hfree).2
            (isUnfiltered_cons.mp hfree').2 hjoins
  | cons first before ih =>
      intro before' path t hrun hrun' hfree hfree' hsame hi hj hkey
      cases before' with
      | nil => exact nomatch hsame
      | cons first' before' =>
          obtain ⟨-, hfollows, hrest⟩ := hrun
          obtain ⟨-, hfollows', hrest'⟩ := hrun'
          rw [List.map_cons, List.map_cons, List.cons_beq_cons, Bool.and_eq_true] at hsame
          rw [List.cons_append] at hfree hfree'
          obtain ⟨hfirst, hrestFree⟩ := isUnfiltered_cons.mp hfree
          obtain ⟨hfirst', hrestFree'⟩ := isUnfiltered_cons.mp hfree'
          have heq : first = first' := eq_of_follows hnodup hfollows hfollows' hfirst hfirst'
            (key_eq_of_beq hsame.1)
          subst heq
          exact ih before' _ first hrest hrest' hrestFree hrestFree' hsame.2 hi hj hkey

end Planner

end IndexDesign
