import IndexDesign.Proofs.Plan.Enumeration

/-! # A larger pool keeps every plan

    What follows a state over some candidates follows it over more of them, so
    a run over a pool is a run over every larger one.  Both searches list
    their runs in the order of runs, and of two lists in one strict order the
    one is a sublist of the other as soon as it is part of it.  So candidates
    that are added put plans between those that were there and move none.

    The pool has its candidates in the order of their keys, once each: what is
    listed twice or in another order makes the same planner. -/

namespace IndexDesign

variable {α : Type}

/-! ## Strict orders -/

theorem Transition.Precedes.asymm {a b : Transition α} (h : a.Precedes b) : ¬ b.Precedes a := by
  intro h'
  rcases h with h | ⟨heq, h⟩
  · rcases h' with h' | ⟨heq', -⟩
    · exact Nat.lt_asymm h h'
    · exact Nat.lt_irrefl _ (heq' ▸ h)
  · rcases h' with h' | ⟨-, h'⟩
    · exact Nat.lt_irrefl _ (heq ▸ h')
    · exact List.lt_asymm h h'

instance : Std.Asymm (Transition.Precedes (α := α)) := ⟨fun _ _ h => h.asymm⟩

instance : Std.Asymm (ComesBefore (α := α)) := inferInstanceAs (Std.Asymm (List.Lex _))

namespace Index

variable {small large : List Index}

/-- Where indexes are told apart by their descriptors, the pool has exactly those that are
    listed. -/
theorem mem_pool_iff (hsame : ∀ i ∈ large, ∀ j ∈ large, i.descriptor = j.descriptor → i = j)
    {i : Index} : i ∈ pool large ↔ i ∈ large := by
  refine ⟨mem_of_mem_pool, fun hi => ?_⟩
  obtain ⟨j, hj, hdescriptor⟩ := exists_mem_pool hi
  rwa [← hsame j (mem_of_mem_pool hj) i hi hdescriptor]

/-- Neither order nor repetition shows in the pool. -/
theorem pool_eq_of_mem_iff
    (hsame : ∀ i ∈ large, ∀ j ∈ large, i.descriptor = j.descriptor → i = j)
    (hmem : ∀ i, i ∈ small ↔ i ∈ large) : pool small = pool large := by
  have hsmall : ∀ i ∈ small, ∀ j ∈ small, i.descriptor = j.descriptor → i = j := fun i hi j hj =>
    hsame i ((hmem i).mp hi) j ((hmem j).mp hj)
  have : Std.Asymm fun i j : Index => Keyed.key i < Keyed.key j := ⟨fun _ _ h => List.lt_asymm h⟩
  refine List.Pairwise.eq_of_mem_iff (Index.pairwise_pool small)
    (Index.pairwise_pool large) fun i => ?_
  show i ∈ pool small ↔ i ∈ pool large
  rw [mem_pool_iff hsmall, mem_pool_iff hsame, hmem]

end Index

namespace Planner

variable [Scalar α] {p larger : Planner α} {path : List (Step α)} {t next : Transition α}
  {q : Query α}

/-! ## Runs over more candidates -/

/-- The second planner prices and bounds plans as the first does and has all its candidates. -/
structure IsExtendedBy (p larger : Planner α) : Prop where
  costs : p.costs = larger.costs
  maxLookups : p.config.maxLookups = larger.config.maxLookups
  pool : ∀ i ∈ p.pool, i ∈ larger.pool

/-- What follows over some candidates follows over more. -/
theorem follows_of_isExtendedBy (h : p.IsExtendedBy larger) (hfollows : p.Follows path t next) :
    larger.Follows path t next := by
  cases hfollows with
  | filter hnext => exact .filter (h.costs ▸ hnext)
  | sort hnext => exact .sort (h.costs ▸ hnext)
  | limit hnext => exact .limit (h.costs ▸ hnext)
  | aggregate hnext => exact .aggregate (h.costs ▸ hnext)
  | lookup index hpool hunused hmore hnext =>
      exact .lookup index (h.pool index hpool) hunused (h.maxLookups ▸ hmore) (h.costs ▸ hnext)

/-- **RUNS STAY RUNS** over more candidates. -/
theorem isRun_of_isExtendedBy (h : p.IsExtendedBy larger) (run : List (Transition α)) :
    ∀ path t, p.IsRun path t run → larger.IsRun path t run := by
  induction run with
  | nil => intro path t hrun; exact hrun
  | cons next rest ih =>
      intro path t hrun
      obtain ⟨hopen, hfollows, hrest⟩ := hrun
      exact ⟨hopen, follows_of_isExtendedBy h hfollows, ih _ next hrest⟩

/-! ## The lists of runs -/

/-- The search lists the runs of a query that asks for something. -/
theorem mem_runs_search_iff [Scalar.CountsCompare α] (hkeys : Index.KeysDistinct p.pool)
    (hopen : (Transition.start q).state.isAnswered = false) {run : List (Transition α)} :
    run ∈ (p.search q).branches.runs ↔ p.IsRunOf q run := by
  refine ⟨isRunOf_of_mem_runs, fun hrun => ?_⟩
  rw [← continuations_of_unanswered hopen]
  exact mem_continuations_of_isRun hkeys _ _ _ run (fun _ h => nomatch h) (p.room_start_le q) hrun

/-- It lists them in the order of runs. -/
theorem pairwise_runs_search (hsorted : p.IsSorted)
    (hopen : (Transition.start q).state.isAnswered = false) :
    (p.search q).branches.runs.Pairwise ComesBefore := by
  rw [← continuations_of_unanswered hopen]
  exact pairwise_continuations hsorted _ _ _

/-- A query that asks for nothing has no runs to list. -/
theorem runs_search_of_answered (h : (Transition.start q).state.isAnswered = true) :
    (p.search q).branches.runs = [] := by
  unfold search branchLength
  dsimp only
  rw [explore, if_pos h]
  rfl

/-- **MORE CANDIDATES, MORE RUNS**: the runs over some candidates are listed among those over
    more, in the same order. -/
theorem runs_search_sublist [Scalar.CountsCompare α] (h : p.IsExtendedBy larger)
    (hkeys : Index.KeysDistinct larger.pool) (hp : p.IsSorted) (hlarger : larger.IsSorted)
    (q : Query α) : (p.search q).branches.runs.Sublist (larger.search q).branches.runs := by
  cases hopen : (Transition.start q).state.isAnswered with
  | true =>
      rw [runs_search_of_answered hopen]
      exact List.nil_sublist _
  | false =>
      have hruns := pairwise_runs_search hp hopen
      refine List.sublist_of_subperm_of_pairwise ?_ hruns (pairwise_runs_search hlarger hopen)
      refine List.subperm_of_subset hruns.nodup fun run hrun => ?_
      exact (mem_runs_search_iff hkeys hopen).mpr
        (isRun_of_isExtendedBy h run _ _ (isRunOf_of_mem_runs hrun))

/-! ## Plans over more candidates -/

section Plans

variable [Rendered α]

/-- The plans of a query, none where planning fails. -/
def plansOf (p : Planner α) (q : Query α) : List (Plan α) :=
  match p.plan q with
  | .ok tree => tree.plans
  | .error _ => []

/-- Without a bound on costs, the plans are those of the runs that the search lists. -/
theorem plansOf_eq (hunlimited : p.config.costRatio = none) :
    p.plansOf q = (p.search q).branches.runs.map (planOf q) := by
  by_cases hnil : (p.search q).branches.runs = []
  · rw [plansOf, plan_of_isEmpty ((Forest.runs_eq_nil_iff _).mp hnil), hnil]
    rfl
  · rw [plansOf, plan_of_runs_ne_nil hunlimited hnil]
    exact plans_eq_map_planOf _ q

/-- **A LARGER POOL KEEPS EVERY PLAN**: without a bound on costs, the plans over some candidates
    stand among the plans over more of them, in the same order and with the same steps, costs and
    states; and candidates that are listed in another order or more than once give the same
    tree. -/
theorem plansOf_sublist [Scalar.CountsCompare α] {small large : List Index}
    (hsub : ∀ i ∈ small, i ∈ large)
    (hsame : ∀ i ∈ large, ∀ j ∈ large, i.descriptor = j.descriptor → i = j)
    (hkeys : Index.KeysDistinct large) (costs : CostModel α) {config : PlanningConfig α}
    (hratio : config.costRatio = none) (q : Query α) :
    ((ofIndexes small costs config).plansOf q).Sublist ((ofIndexes large costs config).plansOf q)
      ∧ ((∀ i ∈ large, i ∈ small) →
          (ofIndexes small costs config).plan q = (ofIndexes large costs config).plan q) := by
  constructor
  · rw [plansOf_eq hratio, plansOf_eq hratio]
    have hextended : (ofIndexes small costs config).IsExtendedBy (ofIndexes large costs config) :=
      ⟨rfl, rfl, fun i hi => (Index.mem_pool_iff hsame).mpr (hsub i (Index.mem_of_mem_pool hi))⟩
    have hdistinct : Index.KeysDistinct (ofIndexes large costs config).pool := fun i hi j hj =>
      hkeys i (Index.mem_of_mem_pool hi) j (Index.mem_of_mem_pool hj)
    exact (runs_search_sublist hextended hdistinct (Index.pairwise_pool small)
      (Index.pairwise_pool large) q).map _
  · intro hback
    have hpool : Index.pool small = Index.pool large :=
      Index.pool_eq_of_mem_iff hsame fun i => ⟨hsub i, hback i⟩
    rw [ofIndexes, hpool, ofIndexes]

/-! ## Users of a city, by name as well -/

/-- Users by their city, in the order of their names. -/
def cityByNameIndex : Index :=
  { cityIndex with ordered := [userName, userId], extra := SortedSet.ofList [userAge] }

/-- The plan over one index stands among those over two, in whichever order and how often these
    are listed. -/
theorem plansOf_sublist_names :
    (∀ i ∈ [cityIndex], i ∈ [cityByNameIndex, cityIndex, cityIndex])
      ∧ (∀ i ∈ [cityByNameIndex, cityIndex, cityIndex],
          ∀ j ∈ [cityByNameIndex, cityIndex, cityIndex], i.descriptor = j.descriptor → i = j)
      ∧ Index.KeysDistinct [cityByNameIndex, cityIndex, cityIndex]
      ∧ ({} : PlanningConfig Rat).costRatio = none
      ∧ ((ofIndexes [cityIndex] (.requestCount : CostModel Rat) {}).plansOf namesQuery).length = 1
      ∧ ((ofIndexes [cityIndex] (.requestCount : CostModel Rat) {}).plansOf namesQuery).Sublist
          ((ofIndexes [cityByNameIndex, cityIndex, cityIndex] .requestCount {}).plansOf namesQuery)
      := by
  have hkeys : ∀ i ∈ [cityByNameIndex, cityIndex, cityIndex],
      ∀ j ∈ [cityByNameIndex, cityIndex, cityIndex], i.key = j.key → i = j := by
    have hkey : cityByNameIndex.key ≠ cityIndex.key := by decide +kernel
    simp only [List.mem_cons, List.not_mem_nil, or_false, or_self]
    rintro i (rfl | rfl) j (rfl | rfl) h
    · rfl
    · exact absurd h hkey
    · exact absurd h.symm hkey
    · rfl
  have hsub : ∀ i ∈ [cityIndex], i ∈ [cityByNameIndex, cityIndex, cityIndex] :=
    fun i hi => List.mem_cons_of_mem _ (List.mem_cons_of_mem _ hi)
  have hsame : ∀ i ∈ [cityByNameIndex, cityIndex, cityIndex],
      ∀ j ∈ [cityByNameIndex, cityIndex, cityIndex], i.descriptor = j.descriptor → i = j :=
    fun i hi j hj h => hkeys i hi j hj (Index.key_eq_of_descriptor_eq h)
  have hdistinct : Index.KeysDistinct [cityByNameIndex, cityIndex, cityIndex] :=
    fun i hi j hj h => congrArg Index.descriptor (hkeys i hi j hj h)
  exact ⟨hsub, hsame, hdistinct, rfl, by decide +kernel,
    (plansOf_sublist hsub hsame hdistinct .requestCount rfl namesQuery).1⟩

end Plans

end Planner

end IndexDesign
