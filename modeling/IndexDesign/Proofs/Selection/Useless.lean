import IndexDesign.Proofs.Selection.Origin
import IndexDesign.Proofs.ZeroOne.Minimal

/-! # Useless variables

    The indexes of the plans that values take for queries are needed, and with
    an index those of the plans that values take to maintain it.  All other
    index variables are useless, and so are those of the plans that maintain
    such indexes.

    Values solve the problem just as well with all useless variables false:
    what is needed stays, what is useless goes with the plans that support it,
    and less fits every budget that more fits.  The plans of queries are kept,
    and only these are counted by partitions.  So an answer of the solver, which
    is minimal, has no useless variable that is true.

    Nothing is said about costs but that no variable has a negative one: also
    indexes that are free are left out, and groups of indexes that only support
    each other. -/

namespace IndexDesign

open ZeroOne

/-! ## The variables of choices -/

namespace Choice

variable {c d : Choice Rat} {cs : List (Choice Rat)} {value other : Nat → Bool}

/-- The variable is that of a plan of the choice. -/
def Owns (c : Choice Rat) (v : Nat) : Prop := c.first ≤ v ∧ v < c.first + c.plans.length

/-- The choices have no variable in common. -/
def Apart (c d : Choice Rat) : Prop := ∀ v, c.Owns v → ¬ d.Owns v

theorem Apart.symm (h : c.Apart d) : d.Apart c := fun v hd hc => h v hc hd

theorem owns_add {i : Nat} (h : i < c.plans.length) : c.Owns (c.first + i) :=
  ⟨Nat.le_add_right _ _, Nat.add_lt_add_left h _⟩

theorem le_first_of_consecutive :
    ∀ first, Consecutive first cs → ∀ c ∈ cs, first ≤ c.first := by
  induction cs with
  | nil => intro first _ c hc; exact nomatch hc
  | cons d cs ih =>
      intro first h c hc
      rcases List.mem_cons.mp hc with rfl | hc
      · exact h.1.ge
      · exact le_trans (Nat.le_add_right _ _) (ih _ h.2 c hc)

/-- Choices that follow each other are apart. -/
theorem pairwise_apart : ∀ first, Consecutive first cs → cs.Pairwise Apart := by
  induction cs with
  | nil => intro first _; exact .nil
  | cons d cs ih =>
      intro first h
      refine List.pairwise_cons.mpr ⟨fun c hc v hd hv => ?_, ih _ h.2⟩
      have hle := le_first_of_consecutive _ h.2 c hc
      rw [← h.1] at hle
      exact absurd (lt_of_lt_of_le hd.2 (le_trans hle hv.1)) (lt_irrefl v)

/-- Values that agree on the variables of a choice take as many of its plans. -/
theorem count_congr (h : ∀ v, c.Owns v → value v = other v) : c.count value = c.count other := by
  unfold count countTrue
  exact sumTrue_congr fun i hi => h _ (owns_add hi)

end Choice

namespace SelectionProblem

variable {problem : SelectionProblem Rat} {value : Nat → Bool} {v : Nat} {u : Upkeep Rat}
  {c : Choice Rat}

/-! ## What is needed -/

/-- The variables of the indexes that plans of queries use, and with each of them those that the
    plans in support of its maintenance use. -/
inductive Needs (problem : SelectionProblem Rat) (value : Nat → Bool) : Nat → Prop
  | query {c : Choice Rat} {p : Plan Rat} {i : Index} {v : Nat} : c ∈ problem.queries →
      c.Takes value (some p) → i ∈ p.lookedUp →
      variableOf? (problem.indexes.map (·.key)) i.key = some v → Needs problem value v
  | support {u : Upkeep Rat} {c : Choice Rat} {p : Plan Rat} {i : Index} {v : Nat} :
      u ∈ problem.upkeep → Needs problem value u.index → c ∈ u.support.getD [] →
      c.Takes value (some p) → i ∈ p.lookedUp →
      variableOf? (problem.indexes.map (·.key)) i.key = some v → Needs problem value v

/-- Every variable that is needed is that of a key. -/
theorem Needs.exists_variableOf? (h : problem.Needs value v) :
    ∃ key, variableOf? (problem.indexes.map (·.key)) key = some v := by
  cases h with
  | query _ _ _ hv => exact ⟨_, hv⟩
  | support _ _ _ _ _ hv => exact ⟨_, hv⟩

theorem Needs.lt (h : problem.Needs value v) : v < problem.indexes.length := by
  obtain ⟨key, hkey⟩ := h.exists_variableOf?
  have hlt := lt_of_variableOf? hkey
  rwa [List.length_map] at hlt

/-- The plans of an index that values choose use chosen indexes. -/
theorem Maintains.usesChosen {indexes : List Index} (h : Maintains indexes value u)
    (hc : c ∈ u.support.getD []) :
    c.count value = (if value u.index then 1 else 0) ∧ UsesChosen indexes value c := by
  obtain ⟨choices, hchoices, hc⟩ := exists_of_mem_getD hc
  exact h.support choices hchoices c hc

/-- What is needed is chosen. -/
theorem Needs.chosen (hsolves : problem.Solves value) (h : problem.Needs value v) :
    value v = true := by
  cases h with
  | query hc htakes hi hv => exact (hsolves.query _ hc).2.of_takes htakes _ hi _ hv
  | support hu _ hc htakes hi hv =>
      exact ((hsolves.upkeep _ hu).usesChosen hc).2.of_takes htakes _ hi _ hv

/-- The index is not needed, or the plan supports one that is not. -/
def IsUseless (problem : SelectionProblem Rat) (value : Nat → Bool) (v : Nat) : Prop :=
  (v < problem.indexes.length ∧ ¬ problem.Needs value v)
    ∨ ∃ u ∈ problem.upkeep, ¬ problem.Needs value u.index ∧ ∃ c ∈ u.support.getD [], c.Owns v

/-! ## Which variables are kept -/

theorem mem_supportChoices (hu : u ∈ problem.upkeep) (hc : c ∈ u.support.getD []) :
    c ∈ problem.supportChoices := List.mem_flatMap.mpr ⟨u, hu, hc⟩

/-- The variables of plans come behind those of indexes. -/
theorem IsNumbered.not_lt_of_owns (hnumbered : problem.IsNumbered)
    (hc : c ∈ problem.queries ++ problem.supportChoices) (howns : c.Owns v) :
    ¬ v < problem.indexes.length :=
  not_lt.mpr (le_trans (Choice.le_first_of_consecutive _ hnumbered.consecutive c hc) howns.1)

theorem Needs.not_isUseless (hnumbered : problem.IsNumbered) (h : problem.Needs value v) :
    ¬ problem.IsUseless value v := by
  rintro (⟨-, hnot⟩ | ⟨u, hu, -, c, hc, howns⟩)
  · exact hnot h
  · have hmem := List.mem_append_right problem.queries (mem_supportChoices hu hc)
    exact hnumbered.not_lt_of_owns hmem howns h.lt

/-- The plans of queries are not useless. -/
theorem not_isUseless_of_query (hnumbered : problem.IsNumbered) (hc : c ∈ problem.queries)
    (howns : c.Owns v) : ¬ problem.IsUseless value v := by
  rintro (⟨hlt, -⟩ | ⟨u, hu, -, k, hk, hkowns⟩)
  · exact hnumbered.not_lt_of_owns (List.mem_append_left _ hc) howns hlt
  · have hapart := (List.pairwise_append.mp (Choice.pairwise_apart _ hnumbered.consecutive)).2.2
    exact hapart c hc k (mem_supportChoices hu hk) v howns hkowns

/-- Neither are those that support an index that is needed. -/
theorem not_isUseless_of_support (hnumbered : problem.IsNumbered) (hu : u ∈ problem.upkeep)
    (hneeds : problem.Needs value u.index) (hc : c ∈ u.support.getD []) (howns : c.Owns v) :
    ¬ problem.IsUseless value v := by
  rintro (⟨hlt, -⟩ | ⟨w, hw, hnot, k, hk, hkowns⟩)
  · have hmem := List.mem_append_right problem.queries (mem_supportChoices hu hc)
    exact hnumbered.not_lt_of_owns hmem howns hlt
  -- the two entries are different, so their plans have different variables
  · have hapart := (List.pairwise_append.mp (Choice.pairwise_apart _ hnumbered.consecutive)).2.1
    have hentries := (List.pairwise_flatMap.mp hapart).2
    have hne : u ≠ w := fun heq => hnot (heq ▸ hneeds)
    have hsymm : Std.Symm fun u w : Upkeep Rat =>
        ∀ c ∈ u.support.getD [], ∀ d ∈ w.support.getD [], c.Apart d :=
      ⟨fun u w h c hc d hd => (h d hd c hc).symm⟩
    exact hentries.forall hu hw hne c hc k hk v howns hkowns

/-! ## Leaving out what is useless -/

open Classical in
/-- The values with all useless variables false. -/
noncomputable def keepUseful (problem : SelectionProblem Rat) (value : Nat → Bool) (v : Nat) :
    Bool :=
  value v && !decide (problem.IsUseless value v)

open Classical in
theorem keepUseful_of_isUseless (h : problem.IsUseless value v) :
    problem.keepUseful value v = false := by
  rw [keepUseful, decide_eq_true h, Bool.not_true, Bool.and_false]

open Classical in
theorem keepUseful_of_not_isUseless (h : ¬ problem.IsUseless value v) :
    problem.keepUseful value v = value v := by
  rw [keepUseful, decide_eq_false h, Bool.not_false, Bool.and_true]

theorem of_keepUseful (h : problem.keepUseful value v = true) : value v = true :=
  ((Bool.and_eq_true _ _).mp h).1

/-- What is kept is over what is needed. -/
theorem usesChosen_keepUseful (hnumbered : problem.IsNumbered)
    (huses : UsesChosen problem.indexes value c)
    (hneeds : ∀ p, c.Takes value (some p) → ∀ i ∈ p.lookedUp, ∀ v,
      variableOf? (problem.indexes.map (·.key)) i.key = some v → problem.Needs value v)
    (hcount : ∀ i, i < c.plans.length → value (c.first + i) = true → c.count value = 1) :
    UsesChosen problem.indexes (problem.keepUseful value) c := by
  intro j p hp htrue i hi v hv
  have hchosen := of_keepUseful htrue
  obtain ⟨q, hq⟩ :=
    Choice.exists_takes_of_count (hcount j (List.getElem?_eq_some_iff.mp hp).1 hchosen)
  obtain rfl := Choice.eq_of_takes hq hp hchosen
  rw [keepUseful_of_not_isUseless ((hneeds p hq i hi v hv).not_isUseless hnumbered)]
  exact huses j p hp hchosen i hi v hv

/-- An index that is needed keeps its plans. -/
theorem maintains_keepUseful_of_needs (hnumbered : problem.IsNumbered)
    (hsolves : problem.Solves value) (hu : u ∈ problem.upkeep)
    (hneeds : problem.Needs value u.index) :
    Maintains problem.indexes (problem.keepUseful value) u := by
  have hmaintains := hsolves.upkeep u hu
  have hindex := keepUseful_of_not_isUseless (hneeds.not_isUseless hnumbered)
  have hchosen := hneeds.chosen hsolves
  refine ⟨fun choices hchoices c hc => ?_, fun hnone => ?_⟩
  · have hmem : c ∈ u.support.getD [] := by rwa [hchoices]
    obtain ⟨hcount, huses⟩ := hmaintains.usesChosen hmem
    rw [hindex]
    refine ⟨?_, usesChosen_keepUseful hnumbered huses
      (fun p hp i hi v hv => .support hu hneeds hmem hp hi hv) fun _ _ _ => ?_⟩
    · rw [← hcount]
      exact Choice.count_congr fun v howns =>
        keepUseful_of_not_isUseless (not_isUseless_of_support hnumbered hu hneeds hmem howns)
    · rw [hcount, hchosen, if_pos rfl]
  · rw [hindex]
    exact hmaintains.unsupported hnone

/-- An index that is not needed goes with all of its plans. -/
theorem maintains_keepUseful_of_not_needs (hnumbered : problem.IsNumbered)
    (hu : u ∈ problem.upkeep) (hneeds : ¬ problem.Needs value u.index) :
    Maintains problem.indexes (problem.keepUseful value) u := by
  have hindex : problem.keepUseful value u.index = false :=
    keepUseful_of_isUseless (.inl ⟨hnumbered.index_lt u hu, hneeds⟩)
  refine ⟨fun choices hchoices c hc => ?_, fun _ => hindex⟩
  have hnone : c.Takes (problem.keepUseful value) none := by
    intro i hi
    refine keepUseful_of_isUseless (.inr ⟨u, hu, hneeds, c, ?_, Choice.owns_add hi⟩)
    rwa [hchoices]
  rw [hindex, if_neg Bool.false_ne_true]
  exact ⟨Choice.count_of_takes_none hnone, usesChosen_of_takes_none hnone⟩

/-- Where fewer variables are true, the candidates that are chosen take no more space. -/
theorem sum_size_mono {other : Nat → Bool} (h : ∀ v, other v = true → value v = true) :
    ((chosenBy problem.indexes other).map Index.size).sum
      ≤ (((chosenBy problem.indexes value).map Index.size).sum : Rat) := by
  have hsub : (chosenBy problem.indexes other).Sublist (chosenBy problem.indexes value) := by
    refine List.monotone_filter_right _ fun i hi => ?_
    obtain ⟨v, hv, htrue⟩ := (Option.any_eq_true _ _).mp hi
    exact (Option.any_eq_true _ _).mpr ⟨v, hv, h v htrue⟩
  refine (hsub.map _).sum_le_sum fun x hx => ?_
  obtain ⟨i, -, rfl⟩ := List.mem_map.mp hx
  exact i.size_nonneg

/-- **WHAT IS USELESS CAN BE LEFT OUT**: the values that are left solve the problem. -/
theorem solves_keepUseful (hnumbered : problem.IsNumbered) (h : problem.Solves value) :
    problem.Solves (problem.keepUseful value) := by
  refine ⟨fun c hc => ?_, fun u hu => ?_, fun budget hbudget => ?_⟩
  · obtain ⟨hcount, huses⟩ := h.query c hc
    refine ⟨?_, usesChosen_keepUseful hnumbered huses
      (fun p hp i hi v hv => .query hc hp hi hv) fun _ _ _ => hcount⟩
    rw [← hcount]
    exact Choice.count_congr fun v howns =>
      keepUseful_of_not_isUseless (not_isUseless_of_query hnumbered hc howns)
  · by_cases hneeds : problem.Needs value u.index
    · exact maintains_keepUseful_of_needs hnumbered h hu hneeds
    · exact maintains_keepUseful_of_not_needs hnumbered hu hneeds
  · exact le_trans (sum_size_mono fun v hv => of_keepUseful hv) (h.fits budget hbudget)

/-! ## Partitions -/

theorem isUnit_zero : Constraint.isUnit (Scalar.zero : Rat) = false := by
  rw [Constraint.isUnit, Scalar.zero_rat, Scalar.one_rat, Scalar.abs_rat, Scalar.tolerance_rat]
  norm_num

/-- Only the constraints of queries are partitions. -/
theorem exists_owns_of_partition {row : Constraint Rat} (h : row ∈ problem.program.partitions)
    {t : Nat × Rat} (ht : t ∈ row.terms) : ∃ c ∈ problem.queries, c.Owns t.1 := by
  obtain ⟨hmem, hpartition⟩ := Program.of_mem_disjointPartitions _ [] h
  rw [program, Program.ofParts_eq] at hmem
  obtain ⟨row, hrow, rfl⟩ := List.mem_map.mp hmem
  simp only [Constraint.isSetPartition, Bool.and_eq_true, beq_iff_eq] at hpartition
  have hsense : row.sense = .exactly := hpartition.1.1.1
  have hbound : Constraint.isUnit row.bound = true := hpartition.1.1.2
  cases isRow_of_mem hrow with
  | onePlan hc =>
      obtain ⟨s, hs, hst⟩ := List.mem_map.mp (Program.mem_mergeTerms (List.mem_filter.mp ht).1)
      obtain ⟨⟨p, v⟩, hp, rfl⟩ := List.mem_map.mp hs
      obtain ⟨hle, hp⟩ := List.mk_mem_zipIdx_iff_le_and_getElem?_sub.mp hp
      have hlt := (List.getElem?_eq_some_iff.mp hp).1
      refine ⟨_, hc, ?_⟩
      rw [← hst]
      exact ⟨hle, by dsimp only; omega⟩
  -- the equations of support plans are bounded by zero
  | iffIndex => exact absurd (isUnit_zero.symm.trans hbound) Bool.false_ne_true
  -- the others are no equations
  | uses => cases hsense
  | unsupported => cases hsense
  | budget _ => cases hsense

/-! ## Answers -/

/-- The array of the values with all useless variables false. -/
noncomputable def useful (problem : SelectionProblem Rat) (values : Array Bool) : Array Bool :=
  (Array.range values.size).map (problem.keepUseful (values.getD · false))

theorem getD_useful (values : Array Bool) (v : Nat) :
    (problem.useful values).getD v false = problem.keepUseful (values.getD · false) v := by
  rw [useful, Array.getD_eq_getD_getElem?, Array.getElem?_map]
  by_cases hv : v < values.size
  · rw [Array.getElem?_range, if_pos hv]
    rfl
  · rw [Array.getElem?_range, if_neg hv]
    have hfalse : values.getD v false = false := by
      rw [Array.getD_eq_getD_getElem?, Array.getElem?_eq_none (not_lt.mp hv)]
      rfl
    rw [keepUseful, hfalse]
    rfl

/-- **ANSWERS HAVE NO USELESS INDEX**: every index variable that an answer makes true is needed,
    where no variable has a negative objective. -/
theorem needs_of_solve {s : BranchAndBound} {a : Assignment Rat} (hnumbered : problem.IsNumbered)
    (hnonneg : ∀ x ∈ problem.program.vars, 0 ≤ x.objective)
    (h : s.solve problem.program = .ok a) (hv : v < problem.indexes.length)
    (htrue : a.value v = true) : problem.withSlack.Needs a.value v := by
  have hslack : problem.withSlack.IsNumbered := ⟨hnumbered.consecutive, hnumbered.index_lt⟩
  obtain ⟨hsize, hsolves⟩ := isFeasible_iff_withSlack.mp (BranchAndBound.isSound_of_solve h).1
  have hvalues : ((problem.withSlack.useful a.values).getD · false)
      = problem.withSlack.keepUseful a.value := funext fun v => getD_useful a.values v
  have hfeasible : problem.program.isFeasible (problem.withSlack.useful a.values) = true := by
    refine isFeasible_iff_withSlack.mpr ⟨?_, ?_⟩
    · rw [useful, Array.size_map, Array.size_range]
      exact hsize
    · rw [hvalues]
      exact solves_keepUseful hslack hsolves
  have hminor : problem.program.IsMinor (problem.withSlack.useful a.values) a.values := by
    refine ⟨fun v hv => ?_, fun row hrow t ht => ?_⟩
    · rw [getD_useful] at hv
      exact of_keepUseful hv
    · obtain ⟨c, hc, howns⟩ := exists_owns_of_partition hrow ht
      rw [getD_useful]
      exact keepUseful_of_not_isUseless (not_isUseless_of_query hslack hc howns)
  have heq := BranchAndBound.eq_of_isMinor hnonneg h hfeasible hminor
  by_contra hnot
  have hfalse : problem.withSlack.keepUseful a.value v = false :=
    keepUseful_of_isUseless (.inl ⟨hv, hnot⟩)
  rw [← hvalues, heq] at hfalse
  exact Bool.false_ne_true (hfalse.symm.trans htrue)

end SelectionProblem

end IndexDesign
