import IndexDesign.Proofs.ZeroOne.Activity
import IndexDesign.ZeroOne.Bound

/-! # The lower bound rises along a branch and stops at the objective

    Assigning more variables raises the least shares of some variables and
    lowers none.  What that does to the share of a set partition depends on the
    partition:

    * if one of its variables becomes true, the share is lost, but that
      variable was free and rises by its whole objective, at least the share;
    * if none does and one is still free, the share stays or rises, as the
      cheapest is sought among fewer variables.

    Partitions share no variable, so no rise pays for two of them, and the
    bound never falls.  Where all variables are assigned by a solution the
    bound is the objective.  A solution extends every assignment that it
    completes, so the bound undercuts all solutions. -/

namespace IndexDesign.ZeroOne

open Finset

/-! ## Objectives as sums over variables -/

namespace Program

/-- What a variable costs in a total assignment. -/
def costOf (m : Program Rat) (values : Array Bool) (v : Nat) : Rat :=
  if values.getD v false then m.objective v else 0

/-- What a variable costs at least over the completions of a partial assignment. -/
def leastOf (m : Program Rat) (p : Partial) (v : Nat) : Rat :=
  match p.value v with
  | some true => m.objective v
  | some false => 0
  | none => m.objective v ⊓ 0

variable {m : Program Rat} {p q : Partial} {values : Array Bool}

theorem objective_of_lt {v : Nat} (h : v < m.vars.size) : m.objective v = m.vars[v].objective := by
  rw [objective, Array.getElem?_eq_getElem h]
  rfl

/-- A variable beyond the last has no objective. -/
theorem lt_size_of_objective_pos {v : Nat} (h : 0 < m.objective v) : v < m.vars.size := by
  by_contra hout
  rw [objective, Array.getElem?_eq_none (not_lt.mp hout)] at h
  exact absurd h (lt_irrefl (0 : Rat))

theorem objectiveValue_eq (m : Program Rat) (h : values.size = m.vars.size) :
    m.objectiveValue values = ∑ v ∈ range m.vars.size, m.costOf values v := by
  rw [objectiveValue, Scalar.sum_rat, sum_map_filter]
  have hlist : (m.vars.toList.zip values.toList).map
      (fun t => if t.2 then t.1.objective else 0)
        = (List.range m.vars.size).map (m.costOf values) := by
    refine List.ext_getElem (by simp [h]) ?_
    intro v hv _
    have hv' : v < m.vars.size := by
      rw [List.length_map, List.length_zip] at hv
      exact lt_of_lt_of_le hv (min_le_left _ _)
    have hvalue : values.getD v false = values[v] := by
      rw [Array.getD_eq_getD_getElem?, Array.getElem?_eq_getElem (h ▸ hv')]
      rfl
    simp [costOf, objective_of_lt hv', hvalue]
  rw [hlist]
  rfl

theorem sum_leastShare_eq (m : Program Rat) (h : p.size = m.vars.size) :
    Scalar.sum (Array.zipWith leastShare m.vars p).toList
      = ∑ v ∈ range m.vars.size, m.leastOf p v := by
  rw [Scalar.sum_rat]
  have hlist : (Array.zipWith leastShare m.vars p).toList
      = (List.range m.vars.size).map (m.leastOf p) := by
    refine List.ext_getElem (by simp [h]) ?_
    intro v hv _
    have hv' : v < m.vars.size := by
      rw [Array.length_toList, Array.size_zipWith] at hv
      exact lt_of_lt_of_le hv (min_le_left _ _)
    rw [Array.getElem_toList, Array.getElem_zipWith, List.getElem_map, List.getElem_range,
      leastOf, Partial.value_eq_getElem (h ▸ hv'), objective_of_lt hv']
    unfold leastShare
    cases p[v] with
    | none => exact Scalar.min_rat _ _
    | some b => cases b <;> rfl
  rw [hlist]
  rfl

/-- Where all variables are assigned, nothing is left to estimate. -/
theorem leastOf_ofValues (m : Program Rat) {v : Nat} (hv : v < values.size) :
    m.leastOf (Partial.ofValues values) v = m.costOf values v := by
  rw [leastOf, Partial.value_ofValues hv, costOf]
  cases values.getD v false <;> rfl

/-- A variable costs no less after more variables are assigned. -/
theorem leastOf_mono (m : Program Rat) (h : p.Extends q) (v : Nat) :
    m.leastOf p v ≤ m.leastOf q v := by
  unfold leastOf
  cases hp : p.value v with
  | some b => rw [h.keeps v b hp]
  | none =>
      cases q.value v with
      | none => exact le_refl _
      | some b =>
          cases b with
          | true => exact min_le_left _ _
          | false => exact min_le_right _ _

/-- By how much the least share of a variable rises. -/
def rise (m : Program Rat) (p q : Partial) (v : Nat) : Rat := m.leastOf q v - m.leastOf p v

theorem rise_nonneg (m : Program Rat) (h : p.Extends q) (v : Nat) : 0 ≤ m.rise p q v :=
  sub_nonneg.mpr (m.leastOf_mono h v)

/-- A free variable that becomes true rises by its objective, where that is not negative. -/
theorem rise_of_isFree (m : Program Rat) {v : Nat} (hfree : p.isFree v = true)
    (htrue : q.value v = some true) (hpos : 0 ≤ m.objective v) :
    m.rise p q v = m.objective v := by
  rw [rise, leastOf, leastOf, htrue, Partial.value_eq_none_of_isFree hfree]
  show m.objective v - m.objective v ⊓ 0 = m.objective v
  rw [min_eq_right hpos, sub_zero]

end Program

/-! ## One partition -/

namespace Constraint

variable {c : Constraint Rat} {p q : Partial} {values : Array Bool}

theorem isUnit_iff (x : Rat) : isUnit x = true ↔ |x - 1| ≤ Scalar.tolerance := by
  rw [isUnit, decide_eq_true_iff, Scalar.abs_rat, Scalar.one_rat]

/-- A set partition that holds has a true variable. -/
theorem exists_true_of_isSetPartition (hset : c.isSetPartition = true)
    (hsat : c.isSatisfied values = true) : ∃ t ∈ c.terms, values.getD t.1 false = true := by
  unfold isSetPartition at hset
  simp only [Bool.and_eq_true, beq_iff_eq] at hset
  obtain ⟨⟨⟨hsense, hbound⟩, -⟩, -⟩ := hset
  by_contra hnone
  have hzero : c.activity values = 0 := by
    rw [activity_eq]
    refine List.sum_eq_zero ?_
    intro x hx
    obtain ⟨t, ht, rfl⟩ := List.mem_map.mp hx
    exact if_neg fun htrue => hnone ⟨t, ht, htrue⟩
  have hshort : c.fallsShort (c.activity values) = true := by
    rw [fallsShort_iff, hsense, hzero]
    refine ⟨rfl, ?_⟩
    have hlow := (abs_le.mp ((isUnit_iff c.bound).mp hbound)).1
    rw [Scalar.tolerance_rat] at hlow ⊢
    linarith
  rw [((c.isSatisfied_iff values).mp hsat).2] at hshort
  exact nomatch hshort

theorem mem_freeVariables {v : Nat} :
    v ∈ c.freeVariables p ↔ v ∈ c.terms.map (·.1) ∧ p.isFree v = true := List.mem_filter

theorem isSettled_iff :
    c.isSettled p = true ↔ ∃ t ∈ c.terms, p.value t.1 = some true := by
  simp only [isSettled, List.any_eq_true, beq_iff_eq]

/-- In a constraint that was not settled, a variable that became true was free. -/
theorem isFree_of_isSettled_eq_false (h : p.Extends q) (hunsettled : c.isSettled p = false)
    {t : Nat × Rat} (ht : t ∈ c.terms) (htrue : q.value t.1 = some true) :
    p.isFree t.1 = true := by
  refine Option.isNone_iff_eq_none.mpr ?_
  cases hp : p.value t.1 with
  | none => rfl
  | some b =>
      obtain rfl : b = true := Option.some.inj ((h.keeps _ _ hp).symm.trans htrue)
      rw [isSettled_iff.mpr ⟨t, ht, hp⟩] at hunsettled
      exact nomatch hunsettled

/-- One of the constraint's variables is true or may still become so. -/
def IsOpen (c : Constraint Rat) (p : Partial) : Prop :=
  ∃ t ∈ c.terms, p.value t.1 = some true ∨ p.value t.1 = none

/-- A solution settles every set partition. -/
theorem isSettled_ofValues (hset : c.isSetPartition = true) (hsat : c.isSatisfied values = true) :
    c.isSettled (Partial.ofValues values) = true := by
  obtain ⟨t, ht, htrue⟩ := exists_true_of_isSetPartition hset hsat
  refine isSettled_iff.mpr ⟨t, ht, ?_⟩
  have hlt : t.1 < values.size := by
    by_contra hout
    rw [Array.getD_eq_getD_getElem?, Array.getElem?_eq_none (not_lt.mp hout)] at htrue
    exact nomatch htrue
  rw [Partial.value_ofValues hlt, htrue]

end Constraint

namespace Program

variable {m : Program Rat} {c : Constraint Rat} {p q : Partial} {values : Array Bool}

theorem le_foldl_min_iff {y : Rat} (xs : List Rat) : ∀ start,
    y ≤ xs.foldl Scalar.min start ↔ y ≤ start ∧ ∀ x ∈ xs, y ≤ x := by
  induction xs with
  | nil => intro start; simp
  | cons x xs ih =>
      intro start
      rw [List.foldl_cons, ih, Scalar.min_rat, le_inf_iff, List.forall_mem_cons, and_assoc]

/-- Where a variable is free there is a cheapest one, and its objective is the largest that
    undercuts none of the free variables. -/
theorem exists_cheapest (m : Program Rat) {v : Nat} (hv : v ∈ c.freeVariables p) :
    ∃ x, m.cheapest? p c = some x
      ∧ ∀ y, y ≤ x ↔ ∀ w ∈ c.freeVariables p, y ≤ m.objective w := by
  unfold cheapest?
  cases hfree : c.freeVariables p with
  | nil => rw [hfree] at hv; exact nomatch hv
  | cons w ws =>
      refine ⟨_, rfl, ?_⟩
      intro y
      rw [le_foldl_min_iff, List.forall_mem_map, List.forall_mem_cons]

/-- What a set partition adds to the bound. -/
def shareOf (m : Program Rat) (p : Partial) (c : Constraint Rat) : Rat :=
  (m.partitionShare? p c).getD 0

theorem partitionShare_eq_some {x : Rat} (h : m.partitionShare? p c = some x) :
    c.isSettled p = false ∧ m.cheapest? p c = some x ∧ 0 < x := by
  unfold partitionShare? at h
  split at h
  · exact nomatch h
  · next hsettled =>
    obtain ⟨hx, hkeep⟩ := Option.filter_eq_some_iff.mp h
    rw [Bool.and_eq_true, decide_eq_true_iff, Scalar.zero_rat] at hkeep
    exact ⟨Bool.eq_false_iff.mpr hsettled, hx, hkeep.2⟩

theorem shareOf_nonneg (m : Program Rat) (p : Partial) (c : Constraint Rat) :
    0 ≤ m.shareOf p c := by
  unfold shareOf
  cases h : m.partitionShare? p c with
  | none => exact le_refl 0
  | some x => exact (partitionShare_eq_some h).2.2.le

theorem shareOf_of_isSettled (m : Program Rat) (h : c.isSettled p = true) :
    m.shareOf p c = 0 := by
  rw [shareOf, partitionShare?, if_pos h]
  rfl

/-- Where a variable is free and none is true, the share is at least what every free variable
    costs at least. -/
theorem le_shareOf (m : Program Rat) (hsettled : c.isSettled p = false) {v : Nat}
    (hv : v ∈ c.freeVariables p) {x : Rat} (hpos : 0 < x)
    (hle : ∀ w ∈ c.freeVariables p, x ≤ m.objective w) : x ≤ m.shareOf p c := by
  obtain ⟨y, hy, hgreatest⟩ := m.exists_cheapest hv
  have hxy : x ≤ y := (hgreatest x).mpr hle
  have hkeep : (Scalar.isFinite y && decide (Scalar.zero < y)) = true := by
    rw [Scalar.isFinite_rat, Bool.true_and, decide_eq_true_iff, Scalar.zero_rat]
    exact lt_of_lt_of_le hpos hxy
  rw [shareOf, partitionShare?, hsettled, hy, if_neg Bool.false_ne_true, Option.filter_some,
    if_pos hkeep]
  exact hxy

/-- A share is what every free variable costs at least. -/
theorem le_objective_of_partitionShare {x : Rat} (h : m.partitionShare? p c = some x) {v : Nat}
    (hv : v ∈ c.freeVariables p) : x ≤ m.objective v := by
  obtain ⟨y, hy, hgreatest⟩ := m.exists_cheapest hv
  obtain ⟨-, hx, -⟩ := partitionShare_eq_some h
  obtain rfl : x = y := Option.some.inj (hx.symm.trans hy)
  exact (hgreatest x).mp (le_refl x) v hv

/-- Where a partition loses its share as one of its variables becomes true, that variable rises by
    at least the share. -/
theorem exists_rise_of_isSettled (m : Program Rat) (h : p.Extends q) {x : Rat}
    (hshare : m.partitionShare? p c = some x) (hsettled : c.isSettled q = true) :
    ∃ v ∈ c.terms.map (·.1), v < m.vars.size ∧ x ≤ m.rise p q v := by
  obtain ⟨hunsettled, -, hpos⟩ := partitionShare_eq_some hshare
  obtain ⟨t, ht, htrue⟩ := Constraint.isSettled_iff.mp hsettled
  have hfree := Constraint.isFree_of_isSettled_eq_false h hunsettled ht htrue
  have hmem : t.1 ∈ c.terms.map (·.1) := List.mem_map_of_mem ht
  have hle : x ≤ m.objective t.1 :=
    le_objective_of_partitionShare hshare (Constraint.mem_freeVariables.mpr ⟨hmem, hfree⟩)
  refine ⟨t.1, hmem, lt_size_of_objective_pos (lt_of_lt_of_le hpos hle), ?_⟩
  rwa [m.rise_of_isFree hfree htrue (hpos.le.trans hle)]

/-- Where no variable of a partition is true and one is still free, the share does not fall. -/
theorem le_shareOf_of_isOpen (m : Program Rat) (h : p.Extends q) {x : Rat}
    (hshare : m.partitionShare? p c = some x) (hsettled : c.isSettled q = false)
    (hopen : c.IsOpen q) : x ≤ m.shareOf q c := by
  obtain ⟨-, -, hpos⟩ := partitionShare_eq_some hshare
  obtain ⟨t, ht, htrue | hnone⟩ := hopen
  · rw [Constraint.isSettled_iff.mpr ⟨t, ht, htrue⟩] at hsettled
    exact nomatch hsettled
  · have hv : t.1 ∈ c.freeVariables q := Constraint.mem_freeVariables.mpr
      ⟨List.mem_map_of_mem ht, Option.isNone_iff_eq_none.mpr hnone⟩
    refine m.le_shareOf hsettled hv hpos ?_
    -- what is free after the extension was free before
    intro w hw
    obtain ⟨hmem, hfree⟩ := Constraint.mem_freeVariables.mp hw
    exact le_objective_of_partitionShare hshare
      (Constraint.mem_freeVariables.mpr ⟨hmem, Partial.isFree_of_extends h hfree⟩)

/-- **ONE PARTITION**: its share stays or rises, or one of its variables rises by as much. -/
theorem shareOf_le (m : Program Rat) (h : p.Extends q) (hopen : c.IsOpen q) :
    m.shareOf p c ≤ m.shareOf q c
      ∨ ∃ v ∈ c.terms.map (·.1), v < m.vars.size ∧ m.shareOf p c ≤ m.rise p q v := by
  cases hshare : m.partitionShare? p c with
  | none =>
      rw [shareOf, hshare]
      exact .inl (m.shareOf_nonneg q c)
  | some x =>
      have hx : m.shareOf p c = x := by rw [shareOf, hshare]; rfl
      rw [hx]
      cases hsettled : c.isSettled q with
      | true => exact .inr (m.exists_rise_of_isSettled h hshare hsettled)
      | false => exact .inl (m.le_shareOf_of_isOpen h hshare hsettled hopen)

/-! ## Disjoint partitions -/

/-- The disjoint partitions are set partitions of the program. -/
theorem of_mem_disjointPartitions (cs : List (Constraint Rat)) :
    ∀ taken : List Nat, c ∈ disjointPartitions cs taken → c ∈ cs ∧ c.isSetPartition = true := by
  induction cs with
  | nil => intro _ h; exact nomatch h
  | cons d cs ih =>
      intro taken h
      unfold disjointPartitions at h
      dsimp only at h
      split at h
      · next hchosen =>
        rcases List.mem_cons.mp h with rfl | h
        · exact ⟨List.mem_cons_self, ((Bool.and_eq_true _ _).mp hchosen).1⟩
        · exact (ih _ h).imp_left (List.mem_cons_of_mem _)
      · exact (ih _ h).imp_left (List.mem_cons_of_mem _)

/-- By how much the least shares of all variables but the taken ones rise. -/
def risesOutside (m : Program Rat) (p q : Partial) (taken : List Nat) : Rat :=
  ∑ v ∈ (range m.vars.size).filter (· ∉ taken), m.rise p q v

theorem outside_append_subset (n : Nat) (own taken : List Nat) :
    (range n).filter (· ∉ own ++ taken) ⊆ (range n).filter (· ∉ taken) := by
  intro v hv
  obtain ⟨hr, hout⟩ := mem_filter.mp hv
  exact mem_filter.mpr ⟨hr, fun ht => hout (List.mem_append_right _ ht)⟩

theorem risesOutside_append_le (m : Program Rat) (h : p.Extends q) (own taken : List Nat) :
    m.risesOutside p q (own ++ taken) ≤ m.risesOutside p q taken :=
  sum_le_sum_of_subset_of_nonneg (outside_append_subset _ own taken) fun v _ _ => m.rise_nonneg h v

/-- One of the variables that are taken next can be paid for apart. -/
theorem rise_add_risesOutside_le (m : Program Rat) (h : p.Extends q) {own taken : List Nat}
    {v : Nat} (hv : v ∈ own) (htaken : v ∉ taken) (hlt : v < m.vars.size) :
    m.rise p q v + m.risesOutside p q (own ++ taken) ≤ m.risesOutside p q taken := by
  have hout : v ∉ (range m.vars.size).filter (· ∉ own ++ taken) :=
    fun hmem => (mem_filter.mp hmem).2 (List.mem_append_left _ hv)
  have hins : insert v ((range m.vars.size).filter (· ∉ own ++ taken))
      ⊆ (range m.vars.size).filter (· ∉ taken) :=
    insert_subset (mem_filter.mpr ⟨mem_range.mpr hlt, htaken⟩) (outside_append_subset _ own taken)
  rw [risesOutside, ← sum_insert hout]
  exact sum_le_sum_of_subset_of_nonneg hins fun w _ _ => m.rise_nonneg h w

/-- What partitions that avoid the taken variables lose, the rises of the other variables make up
    for. -/
theorem sum_shareOf_le (m : Program Rat) (h : p.Extends q) (cs : List (Constraint Rat)) :
    ∀ taken : List Nat, (∀ c ∈ disjointPartitions cs taken, c.IsOpen q) →
      ((disjointPartitions cs taken).map (m.shareOf p)).sum
        ≤ ((disjointPartitions cs taken).map (m.shareOf q)).sum + m.risesOutside p q taken := by
  induction cs with
  | nil =>
      intro taken _
      exact add_nonneg (le_refl 0) (sum_nonneg fun v _ => m.rise_nonneg h v)
  | cons c cs ih =>
      intro taken
      unfold disjointPartitions
      dsimp only
      by_cases hchosen : (c.isSetPartition && !(c.terms.map (·.1)).any taken.contains) = true
      · rw [if_pos hchosen]
        intro hopen
        obtain ⟨hc, hrest⟩ := List.forall_mem_cons.mp hopen
        have hih := ih (c.terms.map (·.1) ++ taken) hrest
        rw [List.map_cons, List.map_cons, List.sum_cons, List.sum_cons]
        rcases m.shareOf_le h hc with hshare | ⟨v, hv, hlt, hrise⟩
        · linarith [m.risesOutside_append_le h (c.terms.map (·.1)) taken]
        · -- the rise of `v` pays for the share, and no other partition counts it
          have htaken : v ∉ taken := by
            intro hmem
            have hany : (c.terms.map (·.1)).any taken.contains = true :=
              List.any_eq_true.mpr ⟨v, hv, List.contains_iff_mem.mpr hmem⟩
            rw [hany, Bool.and_comm] at hchosen
            exact nomatch hchosen
          linarith [m.rise_add_risesOutside_le h hv htaken hlt, m.shareOf_nonneg q c]
      · rw [if_neg hchosen]
        exact ih taken

/-! ## The bound -/

theorem lowerBound_eq (m : Program Rat) (partitions : List (Constraint Rat))
    (h : p.size = m.vars.size) :
    m.lowerBound partitions p = ∑ v ∈ range m.vars.size, m.leastOf p v
      + (partitions.map (m.shareOf p)).sum := by
  rw [← m.sum_leastShare_eq h]
  refine (Scalar.foldl_add_rat _ _).trans ?_
  rw [sum_filterMap]
  rfl

/-- **THE BOUND NEVER FALLS** where each partition still has a true or a free variable. -/
theorem lowerBound_mono (m : Program Rat) (hsize : p.size = m.vars.size) (h : p.Extends q)
    (hopen : ∀ c ∈ m.partitions, c.IsOpen q) :
    m.lowerBound m.partitions p ≤ m.lowerBound m.partitions q := by
  have hshares := m.sum_shareOf_le h m.constraints [] hopen
  have hrises : m.risesOutside p q [] = ∑ v ∈ range m.vars.size, m.leastOf q v
      - ∑ v ∈ range m.vars.size, m.leastOf p v := by
    rw [risesOutside, filter_true_of_mem fun v _ => List.not_mem_nil]
    exact sum_sub_distrib _ _
  rw [hrises] at hshares
  rw [m.lowerBound_eq m.partitions hsize,
    m.lowerBound_eq m.partitions (h.size_eq.symm.trans hsize), partitions]
  linarith

/-- The bound of a solution is its objective. -/
theorem lowerBound_ofValues (m : Program Rat) (hfeasible : m.isFeasible values = true) :
    m.lowerBound m.partitions (Partial.ofValues values) = m.objectiveValue values := by
  have hsize := size_of_isFeasible hfeasible
  have hleast : ∑ v ∈ range m.vars.size, m.leastOf (Partial.ofValues values) v
      = ∑ v ∈ range m.vars.size, m.costOf values v :=
    sum_congr rfl fun v hv => m.leastOf_ofValues (hsize ▸ mem_range.mp hv)
  have hshares : (m.partitions.map (m.shareOf (Partial.ofValues values))).sum = 0 := by
    refine List.sum_eq_zero ?_
    intro x hx
    obtain ⟨c, hc, rfl⟩ := List.mem_map.mp hx
    obtain ⟨hmem, hset⟩ := of_mem_disjointPartitions m.constraints [] hc
    exact m.shareOf_of_isSettled
      (Constraint.isSettled_ofValues hset (isSatisfied_of_isFeasible hfeasible c hmem))
  rw [m.lowerBound_eq m.partitions (by rw [Partial.ofValues, Array.size_map, hsize]), hleast,
    hshares, add_zero, m.objectiveValue_eq hsize]

/-- **THE BOUND IS ADMISSIBLE**: no solution that completes the assignment undercuts it. -/
theorem lowerBound_le (h : p.Completes values) (hfeasible : m.isFeasible values = true) :
    m.lowerBound m.partitions p ≤ m.objectiveValue values := by
  rw [← m.lowerBound_ofValues hfeasible]
  refine m.lowerBound_mono (h.size_eq.trans (size_of_isFeasible hfeasible)) h.extends_ofValues ?_
  intro c hc
  obtain ⟨hmem, hset⟩ := of_mem_disjointPartitions m.constraints [] hc
  obtain ⟨t, ht, htrue⟩ := Constraint.isSettled_iff.mp
    (Constraint.isSettled_ofValues hset (isSatisfied_of_isFeasible hfeasible c hmem))
  exact ⟨t, ht, .inl htrue⟩

/-- **THE BOUND UNDERCUTS ALL SOLUTIONS AND NEVER FALLS**: no solution that completes an assignment
    costs less than its bound, and the bound of an extension is no lower as long as each partition
    has a true or a free variable.  A partition whose variables are all false loses its share, so
    that the bound may fall where no solution is left. -/
theorem lowerBound_admissible_mono (m : Program Rat) :
    (∀ p values, p.Completes values → m.isFeasible values = true →
        m.lowerBound m.partitions p ≤ m.objectiveValue values)
      ∧ ∀ p q, p.size = m.vars.size → p.Extends q → (∀ c ∈ m.partitions, c.IsOpen q) →
          m.lowerBound m.partitions p ≤ m.lowerBound m.partitions q := by
  refine ⟨?_, ?_⟩
  · intro p values hcomp hfeasible
    exact lowerBound_le hcomp hfeasible
  · intro p q hsize hextends hopen
    exact m.lowerBound_mono hsize hextends hopen

/-- A program that takes one of two plans, and an extra that pays off unless it takes the first. -/
def extraProgram : Program Rat :=
  ((((Program.empty.addVariable "first" 3).addVariable "second" 5).addVariable "extra"
    (-4)).addConstraint "one plan" [(0, 1), (1, 1)] .exactly 1).addConstraint
      "no extra with the first" [(0, 1), (2, 1)] .atMost 1

theorem lowerBound_admissible_mono_extra :
    (Partial.free 3).Extends ((Partial.free 3).assign 0 false)
      ∧ (∀ c ∈ extraProgram.partitions, c.IsOpen ((Partial.free 3).assign 0 false))
      ∧ extraProgram.isFeasible #[false, true, true] = true
      ∧ extraProgram.lowerBound extraProgram.partitions (Partial.free 3)
          ≤ extraProgram.lowerBound extraProgram.partitions ((Partial.free 3).assign 0 false)
      ∧ extraProgram.lowerBound extraProgram.partitions ((Partial.free 3).assign 0 false)
          ≤ extraProgram.objectiveValue #[false, true, true] := by
  have hextends := Partial.extends_assign (p := Partial.free 3) (v := 0) false (by decide)
  have hopen : ∀ c ∈ extraProgram.partitions, c.IsOpen ((Partial.free 3).assign 0 false) := by
    unfold Constraint.IsOpen
    decide +kernel
  have hfeasible : extraProgram.isFeasible #[false, true, true] = true := by cbv
  have hfree : (Partial.free 3).Completes #[false, true, true] := Partial.completes_free rfl
  obtain ⟨hadmissible, hmono⟩ := lowerBound_admissible_mono extraProgram
  exact ⟨hextends, hopen, hfeasible, hmono _ _ rfl hextends hopen,
    hadmissible _ _ (hfree.assign 0) hfeasible⟩

end Program

end IndexDesign.ZeroOne
