import IndexDesign.Plan.Search
import IndexDesign.Proofs.Index.Pool
import IndexDesign.Proofs.Plan.Steps
import IndexDesign.Proofs.Pointwise

/-! # Runs — the ways to answer a query, one step at a time

    A run goes from the start of a query to an answered state, and no state
    before its last is answered.  Each of its transitions is a step in memory
    that applies to the state before it, or the lookup of a candidate that the
    run has not used yet.  Nothing is said here of how runs are found.

    The search builds a forest.  The branches of a forest, read from a root to
    a leaf, are what the search has found; `continuations` adds the empty run
    where a state is answered already, which makes one recursion of what the
    search does at a state. -/

namespace IndexDesign

variable {α : Type}

/-! ## Runs -/

namespace Planner

variable [Scalar α]

/-- The transition `next` goes on from `t`, which the steps of `path` have led to, the latest
    first. -/
inductive Follows (p : Planner α) (path : List (Step α)) (t next : Transition α) : Prop where
  | filter (h : Transition.filter p.costs t.state = .ok next)
  | sort (h : Transition.sort p.costs t.state = .ok next)
  | limit (h : Transition.limit p.costs t.state = .ok next)
  | aggregate (h : Transition.aggregate p.costs t.state = .ok next)
  /-- A candidate that the run has not used, where the run may have one more lookup. -/
  | lookup (index : Index) (hpool : index ∈ p.pool)
      (hunused : ∀ used ∈ path.filterMap (·.lookedUp?), used.descriptor ≠ index.descriptor)
      (hmore : ∀ most, p.config.maxLookups = some most → path.countP (·.isLookup) < most)
      (h : Transition.lookup p.costs t.state
        ⟨path.findSome? (·.lookedUp?), t.step.isAggregating⟩ index = .ok next)

/-- The transitions go on from `t` one after the other, and the last is the first to be
    answered. -/
def IsRun (p : Planner α) : List (Step α) → Transition α → List (Transition α) → Prop
  | _, t, [] => t.state.isAnswered = true
  | path, t, next :: rest =>
    t.state.isAnswered = false ∧ p.Follows path t next ∧ IsRun p (next.step :: path) next rest

/-- The transitions are a run of the query. -/
def IsRunOf (p : Planner α) (q : Query α) (run : List (Transition α)) : Prop :=
  p.IsRun [] (Transition.start q) run

/-- The plan of a run: its steps and the state that it ends in. -/
def planOf (q : Query α) (run : List (Transition α)) : Plan α :=
  ⟨run.map (·.step), (run.getLastD (Transition.start q)).state⟩

variable {p : Planner α} {path : List (Step α)} {t next : Transition α}

/-- What goes on from a transition is a step in memory or the lookup of a candidate. -/
theorem isInMemory_or_isLookup (h : p.Follows path t next) :
    Transition.IsInMemory t.state next
      ∨ ∃ index ∈ p.pool, ∃ covered, Transition.IsLookup p.costs t.state
          ⟨path.findSome? (·.lookedUp?), t.step.isAggregating⟩ index covered next := by
  cases h with
  | filter h => exact .inl (Transition.isInMemory_filter h)
  | sort h => exact .inl (Transition.isInMemory_sort h)
  | limit h => exact .inl (Transition.isInMemory_limit h)
  | aggregate h => exact .inl (Transition.isInMemory_aggregate h)
  | lookup index hpool _ _ h => exact .inr ⟨index, hpool, Transition.lookup_spec h⟩

/-- Where there is nothing more to visit, nothing is looked up. -/
theorem not_lookup_of_joins_nil (hjoins : t.state.joins = []) (h : p.Follows path t next) :
    next.step.lookedUp? = none := by
  rcases isInMemory_or_isLookup h with hmemory | ⟨index, -, covered, hlookup⟩
  · exact hmemory.lookedUp
  · have hhead := PlanState.head_contained_of_coverage hlookup.coverage
    rw [hjoins] at hhead
    exact absurd hhead Bool.false_ne_true

/-- What neither looks an index up nor filters comes when there is nothing more to visit. -/
theorem joins_of_follows (h : p.Follows path t next) (hmemory : next.step.lookedUp? = none)
    (hfilter : next.step.isFilter = false) :
    t.state.joins = [] ∧ next.state.joins = [] := by
  cases h with
  | filter h =>
      rw [Transition.isFilter_filter h] at hfilter
      exact nomatch hfilter
  | sort h =>
      obtain ⟨-, -, -, hanswered, -, hstate⟩ := Transition.sort_spec h
      have hjoins := (PlanState.isDone_of_isAnsweredFor hanswered).joins
      exact ⟨hjoins, by rw [hstate]; exact hjoins⟩
  | limit h =>
      obtain ⟨-, limit, -, -, hanswered, -, hstate⟩ := Transition.limit_spec h
      have hjoins := (PlanState.isDone_of_isAnsweredFor hanswered).joins
      exact ⟨hjoins, by rw [hstate]; exact hjoins⟩
  | aggregate h =>
      obtain ⟨-, -, hanswered, -, rows, hstate⟩ := Transition.aggregate_spec h
      have hjoins := (PlanState.isDone_of_isAnsweredFor hanswered).joins
      exact ⟨hjoins, by rw [hstate]; exact hjoins⟩
  | lookup index _ _ _ h =>
      obtain ⟨covered, hlookup⟩ := Transition.lookup_spec h
      rw [hlookup.lookedUp] at hmemory
      exact nomatch hmemory

/-! ## Invariants of runs -/

section Invariant

variable (holds : List (Step α) → Transition α → Prop) {after : List (Transition α)}

/-- What every step carries on holds in the middle of a run, at the transition that the part
    before ends in. -/
theorem holds_of_isRun_append (hstep : ∀ {path t next}, holds path t → p.Follows path t next →
      holds (next.step :: path) next) (before : List (Transition α)) :
    ∀ path t, holds path t → p.IsRun path t (before ++ next :: after) →
      holds ((before.map (·.step)).reverse ++ path) (before.getLastD t)
        ∧ p.Follows ((before.map (·.step)).reverse ++ path) (before.getLastD t) next
        ∧ p.IsRun (next.step :: ((before.map (·.step)).reverse ++ path)) next after := by
  induction before with
  | nil => intro path t ht hrun; exact ⟨ht, hrun.2.1, hrun.2.2⟩
  | cons first before ih =>
      intro path t ht hrun
      obtain ⟨-, hfollows, hrest⟩ := hrun
      rw [List.getLastD_cons, List.map_cons, List.reverse_cons, List.append_assoc]
      exact ih _ first (hstep ht hfollows) hrest

theorem exists_of_isRun_append (hstep : ∀ {path t next}, holds path t → p.Follows path t next →
      holds (next.step :: path) next) (before : List (Transition α)) :
    ∀ path t, holds path t → p.IsRun path t (before ++ next :: after) →
      ∃ path' t', holds path' t' ∧ p.Follows path' t' next
        ∧ p.IsRun (next.step :: path') next after := fun path t ht hrun =>
  ⟨_, _, holds_of_isRun_append holds hstep before path t ht hrun⟩

/-- And at its end. -/
theorem holds_of_isRun (hstep : ∀ {path t next}, holds path t → p.Follows path t next →
      holds (next.step :: path) next) (run : List (Transition α)) :
    ∀ path t, holds path t → p.IsRun path t run →
      holds ((run.map (·.step)).reverse ++ path) (run.getLastD t) := by
  induction run with
  | nil => intro path t ht _; exact ht
  | cons first rest ih =>
      intro path t ht hrun
      obtain ⟨-, hfollows, hrest⟩ := hrun
      rw [List.getLastD_cons, List.map_cons, List.reverse_cons, List.append_assoc]
      exact ih _ first (hstep ht hfollows) hrest

end Invariant

/-! ## What the search tries -/

/-- The transitions that the search goes on with. -/
def successors (p : Planner α) (path : List (Step α)) (t : Transition α) : List (Transition α) :=
  (p.attempts path t).filterMap (·.toOption)

theorem toOption_eq_some_iff {ε β : Type} {x : Except ε β} {y : β} :
    x.toOption = some y ↔ x = .ok y := by
  cases x with
  | error e => exact ⟨fun h => (nomatch h), fun h => (nomatch h)⟩
  | ok z =>
      constructor
      · intro h
        rw [Option.some.inj h]
      · intro h
        rw [h]
        rfl

theorem mem_lookups_iff :
    .ok next ∈ p.lookups path t ↔ p.atLookupLimit path = false
      ∧ ∃ index ∈ p.pool, t.state.joins.head?.any index.graph.contains = true
        ∧ index.key ∉ (path.filterMap (·.lookedUp?)).map (·.key)
        ∧ Transition.lookup p.costs t.state
            ⟨path.findSome? (·.lookedUp?), t.step.isAggregating⟩ index = .ok next := by
  unfold lookups
  dsimp only
  split
  · next hlimit =>
    constructor
    · intro h
      exact nomatch List.mem_singleton.mp h
    · rintro ⟨hless, -⟩
      rw [hlimit] at hless
      exact nomatch hless
  · next hlimit =>
    constructor
    · intro h
      obtain ⟨index, hindex, hok⟩ := List.mem_map.mp h
      obtain ⟨hpool, hnear⟩ := List.mem_filter.mp hindex
      split at hok
      · exact nomatch hok
      · next hunused =>
        exact ⟨Bool.eq_false_iff.mpr hlimit, index, hpool, hnear,
          fun hmem => hunused (List.contains_iff_mem.mpr hmem), hok⟩
    · rintro ⟨-, index, hpool, hnear, hunused, hok⟩
      refine List.mem_map.mpr ⟨index, List.mem_filter.mpr ⟨hpool, hnear⟩, ?_⟩
      rw [if_neg fun hmem => hunused (List.contains_iff_mem.mp hmem)]
      exact hok

theorem mem_successors_iff :
    next ∈ p.successors path t ↔ Transition.filter p.costs t.state = .ok next
      ∨ Transition.sort p.costs t.state = .ok next ∨ Transition.limit p.costs t.state = .ok next
      ∨ Transition.aggregate p.costs t.state = .ok next ∨ .ok next ∈ p.lookups path t := by
  have hmem : next ∈ p.successors path t ↔ .ok next ∈ p.attempts path t := by
    unfold successors
    rw [List.mem_filterMap]
    constructor
    · rintro ⟨x, hx, hnext⟩
      rwa [← toOption_eq_some_iff.mp hnext]
    · intro h
      exact ⟨_, h, rfl⟩
  rw [hmem, attempts, List.mem_append, List.mem_cons, List.mem_cons, List.mem_cons,
    List.mem_singleton, or_assoc, or_assoc, or_assoc, eq_comm, eq_comm (a := Except.ok next),
    eq_comm (a := Except.ok next), eq_comm (a := Except.ok next)]

omit [Scalar α] in
theorem atLookupLimit_eq_false_iff :
    p.atLookupLimit path = false
      ↔ ∀ most, p.config.maxLookups = some most → path.countP (·.isLookup) < most := by
  unfold atLookupLimit
  cases p.config.maxLookups with
  | none => exact ⟨fun _ _ h => (nomatch h), fun _ => rfl⟩
  | some most =>
      rw [Option.any_some, decide_eq_false_iff_not, Nat.not_le]
      constructor
      · intro hlt m hm
        rwa [← Option.some.inj hm]
      · intro h
        exact h most rfl

/-- Everything that the search goes on with follows. -/
theorem follows_of_mem_successors (h : next ∈ p.successors path t) : p.Follows path t next := by
  rcases mem_successors_iff.mp h with h | h | h | h | h
  · exact .filter h
  · exact .sort h
  · exact .limit h
  · exact .aggregate h
  · obtain ⟨hlimit, index, hpool, -, hunused, hok⟩ := mem_lookups_iff.mp h
    refine .lookup index hpool ?_ (atLookupLimit_eq_false_iff.mp hlimit) hok
    intro used hused hdescriptor
    exact hunused
      (List.mem_map.mpr ⟨used, hused, Index.key_eq_of_descriptor_eq hdescriptor⟩)

/-- The branch has looked up candidates only. -/
def IsOverPool (p : Planner α) (path : List (Step α)) : Prop :=
  ∀ index ∈ path.filterMap (·.lookedUp?), index ∈ p.pool

omit [Scalar α] in
theorem key_not_used (hkeys : Index.KeysDistinct p.pool) (hpath : p.IsOverPool path)
    {index : Index} (hpool : index ∈ p.pool)
    (hunused : ∀ used ∈ path.filterMap (·.lookedUp?), used.descriptor ≠ index.descriptor) :
    index.key ∉ (path.filterMap (·.lookedUp?)).map (·.key) := by
  intro hmem
  obtain ⟨used, hused, hkey⟩ := List.mem_map.mp hmem
  exact hunused used hused (hkeys used (hpath used hused) index hpool hkey)

/-- Where candidates are told apart by their keys, the search goes on with everything that
    follows. -/
theorem mem_successors_of_follows (hkeys : Index.KeysDistinct p.pool) (hpath : p.IsOverPool path)
    (h : p.Follows path t next) : next ∈ p.successors path t := by
  cases h with
  | filter h => exact mem_successors_iff.mpr (.inl h)
  | sort h => exact mem_successors_iff.mpr (.inr (.inl h))
  | limit h => exact mem_successors_iff.mpr (.inr (.inr (.inl h)))
  | aggregate h => exact mem_successors_iff.mpr (.inr (.inr (.inr (.inl h))))
  | lookup index hpool hunused hmore h =>
      refine mem_successors_iff.mpr (.inr (.inr (.inr (.inr (mem_lookups_iff.mpr
        ⟨atLookupLimit_eq_false_iff.mpr hmore, index, hpool, ?_,
          key_not_used hkeys hpath hpool hunused, h⟩)))))
      obtain ⟨covered, hlookup⟩ := Transition.lookup_spec h
      exact PlanState.head_contained_of_coverage hlookup.coverage

end Planner

/-! ## What the search finds -/

namespace Forest

/-- The branches from each root to each leaf. -/
def runs : Forest α → List (List (Transition α))
  | empty => []
  | branch t onward beside =>
    (if onward.isEmpty then [[t]] else onward.runs.map (t :: ·)) ++ beside.runs

/-- The plans of a forest are those of its branches. -/
theorem plans_eq (f : Forest α) :
    ∀ (path : List (Step α)) (t : Transition α), f.plans path
      = f.runs.map fun run => ⟨path ++ run.map (·.step), (run.getLastD t).state⟩ := by
  induction f with
  | empty => intro path t; rfl
  | branch first onward beside ihOnward ihBeside =>
      intro path t
      unfold plans runs
      dsimp only
      rw [List.map_append, ← ihBeside path t]
      congr 1
      split
      · rfl
      · rw [ihOnward (path ++ [first.step]) first, List.map_map]
        refine List.map_congr_left ?_
        intro run _
        show Plan.mk _ _ = Plan.mk _ _
        rw [List.map_cons, List.append_assoc, List.singleton_append, List.getLastD_cons]

theorem runs_eq_nil_iff (f : Forest α) : f.runs = [] ↔ f.isEmpty = true := by
  induction f with
  | empty => exact ⟨fun _ => rfl, fun _ => rfl⟩
  | branch first onward beside ihOnward _ =>
      refine ⟨fun h => ?_, fun h => nomatch h⟩
      unfold runs at h
      have hfirst := (List.append_eq_nil_iff.mp h).1
      split at hfirst
      · exact nomatch hfirst
      · next honward =>
        exact absurd (ihOnward.mp (List.map_eq_nil_iff.mp hfirst)) honward

/-- What is left when plans are dropped are branches of the forest, in their order. -/
theorem runs_retain_sublist (f : Forest α) (keep : Plan α → Bool) :
    ∀ path, (f.retain keep path).runs.Sublist f.runs := by
  induction f with
  | empty => intro path; exact .refl _
  | branch first onward beside ihOnward ihBeside =>
      intro path
      have hbeside : (beside.retain keep path).runs.Sublist (branch first onward beside).runs :=
        (ihBeside path).trans (List.sublist_append_right _ _)
      unfold retain
      dsimp only
      by_cases hempty : onward.isEmpty = true
      -- a leaf stays if its plan passes
      · cases onward with
        | branch => exact nomatch hempty
        | empty =>
            show (if keep _ = true then _ else _ : Forest α).runs.Sublist _
            split
            · exact List.Sublist.append (.refl _) (ihBeside path)
            · exact hbeside
      · rw [if_neg hempty]
        split
        -- any other transition stays if something stays beyond it
        · next halive =>
          rw [Bool.not_eq_true'] at halive
          unfold runs
          rw [if_neg (Bool.eq_false_iff.mp halive), if_neg hempty]
          exact List.Sublist.append ((ihOnward _).map _) (ihBeside path)
        · exact hbeside

end Forest

namespace Planner

variable [Scalar α] {p : Planner α} {path : List (Step α)} {t : Transition α}

/-- The runs that go on from a transition: the branches beyond it, or nothing more where there
    are none and it is answered. -/
def continuations (t : Transition α) (beyond : Forest α) : List (List (Transition α)) :=
  if beyond.isEmpty then if t.state.isAnswered then [[]] else [] else beyond.runs

theorem runs_join (xs : List (Transition α × Explored α)) :
    (join xs).runs
      = xs.flatMap fun x => (continuations x.1 x.2.branches).map (x.1 :: ·) := by
  induction xs with
  | nil => rfl
  | cons x xs ih =>
      obtain ⟨t, beyond⟩ := x
      have hjoin : join ((t, beyond) :: xs)
          = if t.state.isAnswered || !beyond.branches.isEmpty then
              .branch t beyond.branches (join xs)
            else join xs := rfl
      rw [List.flatMap_cons, ← ih, hjoin]
      unfold continuations
      -- without branches beyond it a transition is kept as a leaf where it is answered
      by_cases hempty : beyond.branches.isEmpty = true
      · rw [if_pos hempty, hempty, Bool.not_true, Bool.or_false]
        by_cases hanswered : t.state.isAnswered = true
        · rw [if_pos hanswered, if_pos hanswered, Forest.runs, if_pos hempty]
          rfl
        · rw [if_neg hanswered, if_neg hanswered]
          rfl
      · rw [if_neg hempty, Bool.eq_false_iff.mpr hempty, Bool.not_false, Bool.or_true, if_pos rfl,
          Forest.runs, if_neg hempty]

/-- At an answered state the search stops. -/
theorem branches_of_answered (h : t.state.isAnswered = true) (length : Nat) :
    (p.explore length path t).branches = .empty := by
  cases length with
  | zero => rfl
  | succ length => rw [explore, if_pos h]

theorem continuations_of_answered (h : t.state.isAnswered = true) (length : Nat) :
    continuations t (p.explore length path t).branches = [[]] := by
  rw [branches_of_answered h, continuations, h]
  rfl

theorem continuations_of_unanswered (h : t.state.isAnswered = false) (beyond : Forest α) :
    continuations t beyond = beyond.runs := by
  unfold continuations
  split
  · next hempty => rw [h, beyond.runs_eq_nil_iff.mpr hempty]; rfl
  · rfl

/-- At any other state it goes on with every successor. -/
theorem continuations_of_not_answered (h : t.state.isAnswered = false) (length : Nat) :
    continuations t (p.explore (length + 1) path t).branches
      = (p.successors path t).flatMap fun next =>
          (continuations next (p.explore length (next.step :: path) next).branches).map
            (next :: ·) := by
  rw [continuations_of_unanswered h, explore, if_neg (Bool.eq_false_iff.mp h)]
  dsimp only
  rw [runs_join, List.flatMap_map]
  rfl

theorem cons_mem_continuations (hopen : t.state.isAnswered = false) {next : Transition α}
    (hnext : next ∈ p.successors path t) {length : Nat} {rest : List (Transition α)}
    (hrest : rest ∈ continuations next (p.explore length (next.step :: path) next).branches) :
    next :: rest ∈ continuations t (p.explore (length + 1) path t).branches := by
  rw [continuations_of_not_answered hopen]
  exact List.mem_flatMap.mpr ⟨next, hnext, List.mem_map_of_mem hrest⟩

/-- **SOUNDNESS OF THE SEARCH**: everything that it finds is a run. -/
theorem isRun_of_mem_continuations (length : Nat) :
    ∀ path t run, run ∈ continuations t (p.explore length path t).branches →
      p.IsRun path t run := by
  induction length with
  | zero =>
      intro path t run h
      cases hanswered : t.state.isAnswered with
      | true =>
          rw [continuations_of_answered hanswered] at h
          rw [List.mem_singleton.mp h]
          exact hanswered
      | false =>
          rw [continuations_of_unanswered hanswered] at h
          exact nomatch h
  | succ length ih =>
      intro path t run h
      cases hanswered : t.state.isAnswered with
      | true =>
          rw [continuations_of_answered hanswered] at h
          rw [List.mem_singleton.mp h]
          exact hanswered
      | false =>
          rw [continuations_of_not_answered hanswered] at h
          obtain ⟨next, hnext, h⟩ := List.mem_flatMap.mp h
          obtain ⟨rest, hrest, rfl⟩ := List.mem_map.mp h
          exact ⟨hanswered, follows_of_mem_successors hnext, ih _ _ rest hrest⟩

theorem isRunOf_of_mem_runs {q : Query α} {run : List (Transition α)}
    (h : run ∈ (p.search q).branches.runs) : p.IsRunOf q run := by
  cases hanswered : (Transition.start q).state.isAnswered with
  | true =>
      have hempty : (p.search q).branches = .empty := by
        show (p.explore (p.branchLength q) [] (Transition.start q)).branches = _
        unfold branchLength explore
        rw [if_pos hanswered]
      rw [hempty] at h
      exact nomatch h
  -- the branches of the tree are what the search finds beyond its root
  | false =>
      rw [← continuations_of_unanswered hanswered] at h
      exact isRun_of_mem_continuations _ _ _ run h

/-- The plans of a tree are those of its branches. -/
theorem plans_eq_map_planOf (tree : PlanTree α) (q : Query α) :
    tree.plans = tree.branches.runs.map (planOf q) := by
  rw [PlanTree.plans, Forest.plans_eq _ _ (Transition.start q)]
  rfl

/-! ## What planning returns -/

section Refined

variable [Rendered α]

theorem runs_refine_sublist (p : Planner α) (tree : PlanTree α) :
    (p.refine tree).branches.runs.Sublist tree.branches.runs := by
  have hvalid : (tree.retain (·.fault?.isNone)).branches.runs.Sublist tree.branches.runs :=
    tree.branches.runs_retain_sublist _ _
  unfold refine
  cases p.config.costRatio with
  | none => exact hvalid
  | some ratio =>
      refine List.Sublist.trans ?_ hvalid
      dsimp only [Option.elim]
      unfold PlanTree.prunedByCostRatio
      split
      · exact .refl _
      · exact Forest.runs_retain_sublist _ _ _

theorem eq_of_orNoPlan {found tree : PlanTree α} (h : orNoPlan found = .ok tree) :
    found = tree := by
  unfold orNoPlan at h
  split at h
  · exact nomatch h
  · exact Except.ok.inj h

theorem refine_of_plan {q : Query α} {tree : PlanTree α} (h : p.plan q = .ok tree) :
    p.refine (p.search q) = tree := by
  obtain ⟨found, hfound, hrefined⟩ := exists_of_bind_eq_ok h
  rw [eq_of_orNoPlan hfound]
  exact eq_of_orNoPlan hrefined

/-- A tree that is returned has a plan. -/
theorem runs_ne_nil_of_plan {q : Query α} {tree : PlanTree α} (h : p.plan q = .ok tree) :
    tree.branches.runs ≠ [] := by
  obtain ⟨found, -, hrefined⟩ := exists_of_bind_eq_ok h
  rw [eq_of_orNoPlan hrefined] at hrefined
  intro hnil
  unfold orNoPlan at hrefined
  split at hrefined
  · exact nomatch hrefined
  · next hne => exact hne ((Forest.runs_eq_nil_iff _).mp hnil)

/-- Every plan that is returned is the plan of a run of the query. -/
theorem isRunOf_of_plan {q : Query α} {tree : PlanTree α} (h : p.plan q = .ok tree)
    {run : List (Transition α)} (hrun : run ∈ tree.branches.runs) : p.IsRunOf q run := by
  rw [← refine_of_plan h] at hrun
  exact isRunOf_of_mem_runs ((p.runs_refine_sublist _).subset hrun)

/-- A plan that is returned is that of a run. -/
theorem exists_run_of_mem_plans {q : Query α} {tree : PlanTree α} (h : p.plan q = .ok tree)
    {plan : Plan α} (hplan : plan ∈ tree.plans) :
    ∃ run ∈ tree.branches.runs, plan = planOf q run ∧ p.IsRunOf q run := by
  rw [plans_eq_map_planOf tree q] at hplan
  obtain ⟨run, hrun, rfl⟩ := List.mem_map.mp hplan
  exact ⟨run, hrun, rfl, isRunOf_of_plan h hrun⟩

end Refined

end Planner

end IndexDesign
