import IndexDesign.Proofs.Index.Pool
import IndexDesign.Proofs.Pointwise
import IndexDesign.Proofs.SortedSet
import IndexDesign.Selection.Problem

/-! # Presolve — the candidates that a problem keeps

    A problem is built over fewer candidates than it is given.  Those above
    the budget are left out together with the plans that need them, and then
    those that no plan can reach: the keys in use are grown round by round,
    and as many rounds as there are candidates close them, since each round
    that is not the last takes up a candidate.

    What is kept is closed: a plan of a query that is kept has all of its
    candidates kept, and so has every plan by which a kept candidate can be
    maintained, as far as its candidates fit the budget. -/

namespace IndexDesign

namespace SelectionProblem

variable {α : Type}

/-! ## Keys in use -/

/-- What maintaining the indexes in use takes is in use, as far as it is allowed. -/
def IsClosed (allowed : List String) (maintenance : List (MaintenanceCosts α))
    (used : SortedSet String) : Prop :=
  ∀ e ∈ maintenance, e.maintenance.index.key ∈ used →
    ∀ key ∈ keysOf (e.support.getD []), key ∈ allowed → key ∈ used

theorem mem_keysOf {costs : List (StatementCosts α)} {key : String} :
    key ∈ keysOf costs ↔ ∃ c ∈ costs, ∃ p ∈ c.plans, ∃ i ∈ p.lookedUp, i.key = key := by
  unfold keysOf
  constructor
  · intro h
    obtain ⟨p, hp, h⟩ := List.mem_flatMap.mp h
    obtain ⟨c, hc, hp⟩ := List.mem_flatMap.mp hp
    obtain ⟨i, hi, hkey⟩ := List.mem_map.mp h
    exact ⟨c, hc, p, hp, i, hi, hkey⟩
  · rintro ⟨c, hc, p, hp, i, hi, hkey⟩
    exact List.mem_flatMap.mpr ⟨p, List.mem_flatMap.mpr ⟨c, hc, hp⟩,
      List.mem_map.mpr ⟨i, hi, hkey⟩⟩

theorem mem_growUsed {allowed : List String} {maintenance : List (MaintenanceCosts α)}
    {key : String} (rounds : Nat) :
    ∀ used : SortedSet String, key ∈ used →
      key ∈ growUsed allowed maintenance rounds used := by
  induction rounds with
  | zero => intro used h; exact h
  | succ rounds ih =>
      intro used h
      unfold growUsed
      dsimp only
      split
      · exact h
      · exact ih _ (SortedSet.mem_extend.mpr (.inl h))

/-- The allowed keys that are not in use. -/
def missing (allowed : List String) (used : SortedSet String) : List String :=
  allowed.filter (! used.contains ·)

theorem mem_missing {allowed : List String} {used : SortedSet String} {key : String} :
    key ∈ missing allowed used ↔ key ∈ allowed ∧ key ∉ used := by
  rw [missing, List.mem_filter, Bool.not_eq_true', SortedSet.contains_eq_false_iff]

/-- Taking up a key that is missing leaves fewer. -/
theorem length_missing_lt {allowed : List String} {used next : SortedSet String} {key : String}
    (hkey : key ∈ missing allowed used) (htaken : key ∈ next)
    (hkeeps : ∀ k, k ∈ used → k ∈ next) :
    (missing allowed next).length < (missing allowed used).length := by
  have hsub : missing allowed next = (missing allowed used).filter (! next.contains ·) := by
    unfold missing
    rw [List.filter_filter]
    refine List.filter_congr ?_
    intro k _
    cases hk : used.contains k with
    | true =>
        have hin : next.contains k = true := hkeeps k hk
        rw [hin]
        rfl
    | false => exact (Bool.and_true _).symm
  rw [hsub, List.length_filter_lt_length_iff_exists]
  refine ⟨key, hkey, ?_⟩
  have hin : next.contains key = true := htaken
  rw [hin]
  exact Bool.false_ne_true

/-- **THE KEYS IN USE ARE CLOSED**: after as many rounds as there are allowed keys that are not
    yet in use. -/
theorem isClosed_growUsed (allowed : List String) (maintenance : List (MaintenanceCosts α))
    (rounds : Nat) :
    ∀ used : SortedSet String, (missing allowed used).length ≤ rounds →
      IsClosed allowed maintenance (growUsed allowed maintenance rounds used) := by
  induction rounds with
  | zero =>
      -- no allowed key is missing, so there is nothing that could be taken up
      intro used h e _ _ key _ hallowed
      by_contra hnot
      have hpos : 0 < (missing allowed used).length :=
        List.length_pos_of_mem (mem_missing.mpr ⟨hallowed, hnot⟩)
      omega
  | succ rounds ih =>
      intro used h
      unfold growUsed
      dsimp only
      split
      · next hempty =>
        intro e he hused key hkey hallowed
        by_contra hnot
        rw [List.isEmpty_iff, List.filter_eq_nil_iff] at hempty
        refine hempty key ?_ ?_
        · obtain ⟨c, hc, hplans⟩ := mem_keysOf.mp hkey
          exact mem_keysOf.mpr
            ⟨c, List.mem_flatMap.mpr ⟨e, List.mem_filter.mpr ⟨he, hused⟩, hc⟩, hplans⟩
        · rw [Bool.and_eq_true, Bool.not_eq_true']
          exact ⟨List.contains_iff_mem.mpr hallowed, Bool.eq_false_iff.mpr hnot⟩
      · next hgrown =>
        refine ih _ ?_
        obtain ⟨key, hkey⟩ := List.exists_mem_of_ne_nil _ fun hnil =>
          hgrown (List.isEmpty_iff.mpr hnil)
        obtain ⟨hallowed, hnot⟩ := (Bool.and_eq_true _ _).mp (List.mem_filter.mp hkey).2
        have hmissing : key ∈ missing allowed used :=
          List.mem_filter.mpr ⟨List.contains_iff_mem.mp hallowed, hnot⟩
        have hlt := length_missing_lt hmissing
          (SortedSet.mem_extend.mpr (.inr ⟨key, hkey, rfl⟩))
          (fun k hk => SortedSet.mem_extend.mpr (.inl hk))
        omega

/-! ## What is reachable -/

section Reachable

variable {pool : List Index} {queries : List (StatementCosts α)}
  {maintenance : List (MaintenanceCosts α)}

theorem reachable_sublist : (reachable pool queries maintenance).Sublist pool :=
  List.filter_sublist

theorem mem_keys_reachable {key : String} :
    key ∈ (reachable pool queries maintenance).map (·.key)
      ↔ key ∈ pool.map (·.key)
        ∧ key ∈ growUsed (pool.map (·.key)) maintenance pool.length
            (SortedSet.ofList ((keysOf queries).filter (pool.map (·.key)).contains)) := by
  unfold reachable
  constructor
  · intro h
    obtain ⟨i, hi, rfl⟩ := List.mem_map.mp h
    obtain ⟨hpool, hused⟩ := List.mem_filter.mp hi
    exact ⟨List.mem_map_of_mem hpool, hused⟩
  · rintro ⟨hpool, hused⟩
    obtain ⟨i, hi, rfl⟩ := List.mem_map.mp hpool
    exact List.mem_map_of_mem (List.mem_filter.mpr ⟨hi, hused⟩)

/-- Every candidate that a query plan looks up is reachable. -/
theorem reachable_of_query {c : StatementCosts α} (hc : c ∈ queries) {p : Plan α}
    (hp : p ∈ c.plans) {i : Index} (hi : i ∈ p.lookedUp) (hpool : i.key ∈ pool.map (·.key)) :
    i.key ∈ (reachable pool queries maintenance).map (·.key) := by
  refine mem_keys_reachable.mpr ⟨hpool, mem_growUsed _ _ ?_⟩
  have hkey : i.key ∈ keysOf queries := mem_keysOf.mpr ⟨c, hc, p, hp, i, hi, rfl⟩
  exact SortedSet.mem_ofList.mpr
    ⟨i.key, List.mem_filter.mpr ⟨hkey, List.contains_iff_mem.mpr hpool⟩, rfl⟩

/-- Every candidate that maintaining a reachable one can look up is reachable. -/
theorem reachable_of_support {e : MaintenanceCosts α} (he : e ∈ maintenance)
    (hreach : e.maintenance.index.key ∈ (reachable pool queries maintenance).map (·.key))
    {costs : List (StatementCosts α)} (hcosts : e.support = some costs) {c : StatementCosts α}
    (hc : c ∈ costs) {p : Plan α} (hp : p ∈ c.plans) {i : Index} (hi : i ∈ p.lookedUp)
    (hpool : i.key ∈ pool.map (·.key)) :
    i.key ∈ (reachable pool queries maintenance).map (·.key) := by
  obtain ⟨-, hused⟩ := mem_keys_reachable.mp hreach
  refine mem_keys_reachable.mpr ⟨hpool, ?_⟩
  have hrounds : ∀ test : String → Bool,
      ((pool.map (·.key)).filter test).length ≤ pool.length := fun test =>
    le_trans (List.length_filter_le _ _) (List.length_map _).le
  refine isClosed_growUsed _ maintenance _ _ (hrounds _) e he hused _ ?_ hpool
  rw [hcosts]
  exact mem_keysOf.mpr ⟨c, hc, p, hp, i, hi, rfl⟩

end Reachable

/-! ## Plans that survive -/

theorem isWithin_iff {keys : List String} {p : Plan α} :
    isWithin keys p = true ↔ ∀ i ∈ p.lookedUp, i.key ∈ keys := by
  unfold isWithin
  rw [List.all_eq_true]
  exact forall₂_congr fun i _ => List.contains_iff_mem

theorem mem_retain {c : StatementCosts α} {keys : List String} {p : Plan α} :
    p ∈ (c.retain (isWithin keys)).plans ↔ p ∈ c.plans ∧ ∀ i ∈ p.lookedUp, i.key ∈ keys := by
  show p ∈ c.plans.filter (isWithin keys) ↔ _
  rw [List.mem_filter, isWithin_iff]

theorem mapM_retain_eq_some_iff {keys : List String} (costs : List (StatementCosts α)) :
    ∀ restricted : List (StatementCosts α),
      (costs.mapM fun c =>
          if (c.retain (isWithin keys)).plans.isEmpty then none
          else some (c.retain (isWithin keys))) = some restricted
        ↔ restricted = costs.map (·.retain (isWithin keys))
          ∧ ∀ c ∈ costs, (c.retain (isWithin keys)).plans ≠ [] := by
  induction costs with
  | nil =>
      intro restricted
      rw [List.mapM_nil]
      constructor
      · intro h
        exact ⟨(Option.some.inj h).symm, fun c hc => nomatch hc⟩
      · rintro ⟨rfl, -⟩
        rfl
  | cons c costs ih =>
      intro restricted
      rw [List.mapM_cons]
      by_cases hempty : (c.retain (isWithin keys)).plans.isEmpty = true
      · rw [if_pos hempty]
        constructor
        · intro h
          exact nomatch h
        · rintro ⟨-, h⟩
          exact absurd (List.isEmpty_iff.mp hempty) (h c (List.mem_cons_self ..))
      · rw [if_neg hempty]
        have hne : (c.retain (isWithin keys)).plans ≠ [] := fun hnil =>
          hempty (List.isEmpty_iff.mpr hnil)
        constructor
        · intro h
          obtain ⟨d, hd, h⟩ := Option.bind_eq_some_iff.mp h
          obtain ⟨rest, hrest, h⟩ := Option.bind_eq_some_iff.mp h
          obtain ⟨heq, hall⟩ := (ih rest).mp hrest
          refine ⟨?_, ?_⟩
          · rw [← Option.some.inj h, ← Option.some.inj hd, heq, List.map_cons]
          · intro x hx
            rcases List.mem_cons.mp hx with rfl | hx
            · exact hne
            · exact hall x hx
        · rintro ⟨rfl, hall⟩
          have hrest := (ih _).mpr ⟨rfl, fun x hx => hall x (List.mem_cons_of_mem _ hx)⟩
          rw [hrest]
          rfl

/-- The support queries over given keys are those of the entry with their plans restricted,
    where each is left with a plan. -/
theorem supportOver_eq_some_iff {keys : List String} {e : MaintenanceCosts α}
    {restricted : List (StatementCosts α)} :
    supportOver keys e = some restricted
      ↔ ∃ costs, e.support = some costs ∧ restricted = costs.map (·.retain (isWithin keys))
        ∧ ∀ c ∈ costs, (c.retain (isWithin keys)).plans ≠ [] := by
  unfold supportOver
  rw [Option.bind_eq_some_iff]
  exact exists_congr fun costs => and_congr_right fun _ => mapM_retain_eq_some_iff costs restricted

/-! ## The budget -/

/-- What is left of the candidates and the queries once those above the budget are gone. -/
structure IsRestricted (pool : List Index) (queries : List (StatementCosts Rat))
    (budget : Option Rat) (kept : List Index) (restricted : List (StatementCosts Rat)) : Prop where
  sublist : kept.Sublist pool
  /-- A candidate that fits the budget on its own is kept. -/
  fitting : ∀ i ∈ pool, (∀ b, budget = some b → i.size ≤ b) → i ∈ kept
  /-- Exactly the plans over what is kept are left. -/
  plans : List.Forall₂ (fun c r => ∀ p, p ∈ r.plans
    ↔ p ∈ c.plans ∧ ∀ i ∈ p.lookedUp, i.key ∈ kept.map (·.key)) queries restricted

theorem withinBudget_cases (config : SelectionConfig Rat) (pool : List Index)
    (queries : List (StatementCosts Rat))
    (hover : ∀ c ∈ queries, ∀ p ∈ c.plans, ∀ i ∈ p.lookedUp, i.key ∈ pool.map (·.key)) :
    (∃ kept restricted, withinBudget config pool queries = .ok (kept, restricted)
        ∧ IsRestricted pool queries config.spaceBudget kept restricted)
      ∨ (withinBudget config pool queries = .error (.noSolution config.spaceBudget)
        ∧ ∃ c ∈ queries, ∀ p ∈ c.plans, ∃ i ∈ p.lookedUp, ∀ j ∈ pool, j.key = i.key →
            ∃ b, config.spaceBudget = some b ∧ b < j.size) := by
  unfold withinBudget
  split
  · next budget hbudget hprune =>
    dsimp only
    rw [hbudget]
    -- pruning is on: what is kept are the candidates that fit the budget on their own
    have hmem : ∀ j : Index, j ∈ pool.filter (fun index => decide ((index.size : Rat) ≤ budget))
        ↔ j ∈ pool ∧ j.size ≤ budget := by
      intro j
      rw [List.mem_filter, decide_eq_true_iff]
    have hsub : (pool.filter fun index => decide ((index.size : Rat) ≤ budget)).Sublist pool :=
      List.filter_sublist
    generalize pool.filter (fun index => decide ((index.size : Rat) ≤ budget)) = kept at hmem hsub
    split
    · next hany =>
      refine .inr ⟨rfl, ?_⟩
      obtain ⟨r, hr, hempty⟩ := List.any_eq_true.mp hany
      obtain ⟨c, hc, rfl⟩ := List.mem_map.mp hr
      refine ⟨c, hc, ?_⟩
      intro p hp
      by_contra hnone
      push Not at hnone
      have hmem : p ∈ (c.retain (isWithin (kept.map (·.key)))).plans := by
        refine mem_retain.mpr ⟨hp, ?_⟩
        intro i hi
        obtain ⟨j, hj, hkey, hfits⟩ := hnone i hi
        exact List.mem_map.mpr ⟨j, (hmem j).mpr ⟨hj, hfits budget rfl⟩, hkey⟩
      rw [List.isEmpty_iff.mp hempty] at hmem
      exact nomatch hmem
    · refine .inl ⟨_, _, rfl, hsub, ?_, ?_⟩
      · intro i hi hfits
        exact (hmem i).mpr ⟨hi, hfits budget rfl⟩
      · refine List.forall₂_map_right_iff.mpr ?_
        refine List.forall₂_same.mpr ?_
        intro c _ p
        exact mem_retain
  -- nothing is pruned: all plans are over the pool to begin with
  · refine .inl ⟨pool, queries, rfl, List.Sublist.refl _, fun i hi _ => hi, ?_⟩
    refine List.forall₂_same.mpr ?_
    intro c hc p
    exact ⟨fun hp => ⟨hp, hover c hc p hp⟩, And.left⟩

/-! ## Both passes -/

/-- The candidates and query plans that are left after both passes. -/
structure IsPresolved (pool : List Index) (queries : List (StatementCosts Rat))
    (maintenance : List (MaintenanceCosts Rat)) (budget : Option Rat) (kept : List Index)
    (restricted : List (StatementCosts Rat)) (candidates : List Index) : Prop
    extends IsRestricted pool queries budget kept restricted where
  candidatesSublist : candidates.Sublist kept
  /-- A query plan that is left has its candidates left. -/
  query : ∀ r ∈ restricted, ∀ p ∈ r.plans, ∀ i ∈ p.lookedUp, i.key ∈ candidates.map (·.key)
  /-- A plan that maintains a candidate and fits the budget has its candidates left. -/
  support : ∀ e ∈ maintenance, e.maintenance.index.key ∈ candidates.map (·.key) →
    ∀ costs, e.support = some costs → ∀ c ∈ costs, ∀ p ∈ c.plans,
      (∀ i ∈ p.lookedUp, i.key ∈ kept.map (·.key)) →
        ∀ i ∈ p.lookedUp, i.key ∈ candidates.map (·.key)

/-- Labels leave the queries and their order. -/
theorem map_snd_labels (label : Nat → String) (restricted : List (StatementCosts α)) :
    (restricted.zipIdx.map fun (c, n) => (label n, c)).map (·.2) = restricted := by
  rw [List.map_map]
  exact List.zipIdx_map_fst 0 restricted

/-- Queries with the labels that their choices get. -/
def labelled (restricted : List (StatementCosts Rat)) : List (String × StatementCosts Rat) :=
  restricted.zipIdx.map fun (c, n) => (s!"q{n}", c)

theorem map_snd_labelled (restricted : List (StatementCosts Rat)) :
    (labelled restricted).map (·.2) = restricted :=
  map_snd_labels (fun n => s!"q{n}") restricted

/-- The problem over given candidates. -/
def restrictTo (candidates : List Index) (restricted : List (StatementCosts Rat))
    (maintenance : List (MaintenanceCosts Rat)) (budget : Option Rat) : SelectionProblem Rat :=
  let choices := Choice.number candidates.length (labelled restricted)
  ⟨candidates, choices, upkeepOf (candidates.map (·.key))
    (candidates.length + Choice.total choices) maintenance.zipIdx, budget⟩

/-- **PRESOLVE**: a problem is built over what both passes leave, unless a query has no plan
    over candidates that fit the budget. -/
theorem build_cases (indexes : List Index) (queries : List (StatementCosts Rat))
    (maintenance : List (MaintenanceCosts Rat)) (config : SelectionConfig Rat)
    (hover : ∀ c ∈ queries, ∀ p ∈ c.plans, ∀ i ∈ p.lookedUp,
      i.key ∈ (Index.pool indexes).map (·.key)) :
    (∃ kept restricted candidates,
        IsPresolved (Index.pool indexes) queries maintenance config.spaceBudget kept restricted
          candidates
        ∧ build indexes queries maintenance config
          = .ok (restrictTo candidates restricted maintenance config.spaceBudget))
      ∨ (build indexes queries maintenance config = .error (.noSolution config.spaceBudget)
        ∧ ∃ c ∈ queries, ∀ p ∈ c.plans, ∃ i ∈ p.lookedUp, ∀ j ∈ Index.pool indexes,
            j.key = i.key → ∃ b, config.spaceBudget = some b ∧ b < j.size) := by
  rcases withinBudget_cases config (Index.pool indexes) queries hover with
    ⟨kept, restricted, hwithin, hrestricted⟩ | ⟨hwithin, hnone⟩
  · refine .inl ⟨kept, restricted, reachable kept restricted maintenance,
      ⟨hrestricted, reachable_sublist, ?_, ?_⟩, ?_⟩
    · intro r hr p hp i hi
      obtain ⟨c, -, hplans⟩ := exists_of_forall₂_right hrestricted.plans hr
      exact reachable_of_query hr hp hi (((hplans p).mp hp).2 i hi)
    · intro e he hreach costs hcosts c hc p hp hkept i hi
      exact reachable_of_support he hreach hcosts hc hp hi (hkept i hi)
    · unfold build
      rw [hwithin]
      rfl
  · refine .inr ⟨?_, hnone⟩
    unfold build
    rw [hwithin]
    rfl

end SelectionProblem

end IndexDesign
