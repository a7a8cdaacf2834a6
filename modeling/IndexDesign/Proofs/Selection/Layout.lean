import IndexDesign.Proofs.Selection.Presolve

/-! # Layouts — what choosing indexes is about

    A layout is a set of candidates with one plan for each query and, for
    each entry of maintenance whose index is in the set, one plan for each
    support query.  All of its plans are over its set, no index of it lacks
    support, and it fits the budget.  It costs its plans and the maintenance of
    its indexes.

    The rules for a layout speak of no variables, constraints or presolve.
    Behind them stands what leads over to these: the candidates that are left,
    the variable of a key, which is that of the last candidate that has it, and
    the candidates that values choose. -/

namespace IndexDesign

/-- Chosen candidates, a plan for each query, and for each entry of maintenance the plans of its
    support queries. -/
structure Layout where
  chosen : List Index
  plans : List (Plan Rat)
  support : List (List (Plan Rat))

/-- Whether an index is one of the chosen. -/
def isChosen (chosen : List Index) (index : Index) : Bool := chosen.any (· == index)

/-- The plan is one of those of a query, and over chosen indexes. -/
def Answers (chosen : List Index) (c : StatementCosts Rat) (p : Plan Rat) : Prop :=
  p ∈ c.plans ∧ ∀ i ∈ p.lookedUp, isChosen chosen i = true

/-- The plans answer the support queries of an entry if its index is chosen; otherwise there are
    none. -/
def Supports (chosen : List Index) (e : MaintenanceCosts Rat) (plans : List (Plan Rat)) : Prop :=
  if isChosen chosen e.maintenance.index then
    ∃ costs, e.support = some costs ∧ List.Forall₂ (Answers chosen) costs plans
  else plans = []

/-- The cost of an entry: of its maintenance, if its index is chosen, and of its plans. -/
def entryCost (chosen : List Index) (e : MaintenanceCosts Rat) (plans : List (Plan Rat)) : Rat :=
  (if isChosen chosen e.maintenance.index then e.maintenance.weightedCost else 0)
    + (plans.map Plan.attributedCost).sum

/-- The rules for a layout. -/
structure Layout.IsDesign (indexes : List Index) (queries : List (StatementCosts Rat))
    (maintenance : List (MaintenanceCosts Rat)) (budget : Option Rat) (d : Layout) : Prop where
  nodup : d.chosen.Nodup
  candidates : ∀ i ∈ d.chosen, i ∈ Index.pool indexes
  queries : List.Forall₂ (Answers d.chosen) queries d.plans
  maintenance : List.Forall₂ (Supports d.chosen) maintenance d.support
  fits : ∀ b, budget = some b → (d.chosen.map Index.size).sum ≤ b

/-- The cost of all plans and of all maintenance. -/
def Layout.cost (maintenance : List (MaintenanceCosts Rat)) (d : Layout) : Rat :=
  (d.plans.map Plan.attributedCost).sum
    + (List.zipWith (entryCost d.chosen) maintenance d.support).sum

/-! ## Costs over candidates -/

/-- The index is one of the candidates. -/
def IsCandidate (indexes : List Index) (i : Index) : Prop :=
  ∃ j ∈ indexes, j.descriptor = i.descriptor

/-- All plans and all maintenance are about candidates, which are told apart by their keys, and
    cost nothing below zero. -/
structure IsOver (indexes : List Index) (queries : List (StatementCosts Rat))
    (maintenance : List (MaintenanceCosts Rat)) : Prop where
  distinct : Index.KeysDistinct indexes
  query : ∀ c ∈ queries, ∀ p ∈ c.plans,
    0 ≤ p.attributedCost ∧ ∀ i ∈ p.lookedUp, IsCandidate indexes i
  maintained : ∀ e ∈ maintenance,
    0 ≤ e.maintenance.weightedCost ∧ IsCandidate indexes e.maintenance.index
  support : ∀ e ∈ maintenance, ∀ costs, e.support = some costs → ∀ c ∈ costs, ∀ p ∈ c.plans,
    0 ≤ p.attributedCost ∧ ∀ i ∈ p.lookedUp, IsCandidate indexes i

/-- An entry of maintenance is about candidates. -/
structure IsEntryOver (indexes : List Index) (e : MaintenanceCosts Rat) : Prop where
  index : IsCandidate indexes e.maintenance.index
  support : ∀ costs, e.support = some costs → ∀ c ∈ costs, ∀ p ∈ c.plans,
    ∀ i ∈ p.lookedUp, IsCandidate indexes i

theorem IsOver.entry {indexes : List Index} {queries : List (StatementCosts Rat)}
    {maintenance : List (MaintenanceCosts Rat)} (hover : IsOver indexes queries maintenance)
    {e : MaintenanceCosts Rat} (he : e ∈ maintenance) : IsEntryOver indexes e :=
  ⟨(hover.maintained e he).2, fun costs hcosts c hc p hp =>
    (hover.support e he costs hcosts c hc p hp).2⟩

section Candidates

variable {indexes chosen : List Index} {i j : Index}

theorem isCandidate_of_mem (h : i ∈ indexes) : IsCandidate indexes i := ⟨i, h, rfl⟩

theorem descriptor_eq_of_key_eq (hdistinct : Index.KeysDistinct indexes)
    (hi : IsCandidate indexes i) (hj : IsCandidate indexes j) (hkey : i.key = j.key) :
    i.descriptor = j.descriptor := by
  obtain ⟨a, ha, hai⟩ := hi
  obtain ⟨b, hb, hbj⟩ := hj
  have hab : a.key = b.key := by
    rw [Index.key_eq_of_descriptor_eq hai, Index.key_eq_of_descriptor_eq hbj, hkey]
  rw [← hai, ← hbj]
  exact hdistinct a ha b hb hab

theorem isChosen_iff : isChosen chosen i = true ↔ ∃ j ∈ chosen, j.descriptor = i.descriptor := by
  unfold isChosen
  rw [List.any_eq_true]
  refine exists_congr fun j => and_congr_right fun _ => ?_
  show (j.descriptor == i.descriptor) = true ↔ _
  exact beq_iff_eq

/-- Among candidates, the chosen ones are told by their keys. -/
theorem isChosen_iff_key (hdistinct : Index.KeysDistinct indexes)
    (hchosen : ∀ j ∈ chosen, IsCandidate indexes j) (hi : IsCandidate indexes i) :
    isChosen chosen i = true ↔ ∃ j ∈ chosen, j.key = i.key := by
  rw [isChosen_iff]
  constructor
  · rintro ⟨j, hj, hdescriptor⟩
    exact ⟨j, hj, Index.key_eq_of_descriptor_eq hdescriptor⟩
  · rintro ⟨j, hj, hkey⟩
    exact ⟨j, hj, descriptor_eq_of_key_eq hdistinct (hchosen j hj) hi hkey⟩

end Candidates

/-! ## Candidates that are left -/

/-- The candidates are some of the indexes, told apart by their keys. -/
structure IsPartOf (candidates indexes : List Index) : Prop where
  distinct : Index.KeysDistinct indexes
  mem : ∀ i ∈ candidates, i ∈ indexes
  nodup : (candidates.map (·.key)).Nodup

theorem isPartOf_of_sublist {candidates indexes : List Index}
    (hdistinct : Index.KeysDistinct indexes)
    (hsub : candidates.Sublist (Index.pool indexes)) : IsPartOf candidates indexes :=
  ⟨hdistinct, fun _ hi => Index.mem_of_mem_pool (hsub.subset hi),
    (Index.nodup_keys_pool hdistinct).sublist (hsub.map _)⟩

namespace SelectionProblem

/-! ## The variables of keys -/

section Keys

variable {keys : List String} {candidates : List Index} {key : String} {v : Nat}

/-- The variable of a key is its last position. -/
theorem variableOf?_eq_some_iff : variableOf? keys key = some v
    ↔ ∃ before after, keys = before ++ key :: after ∧ before.length = v ∧ key ∉ after := by
  rw [variableOf?, List.lookup_eq_some_iff]
  constructor
  · rintro ⟨later, earlier, hsplit, hlast⟩
    rw [List.reverse_eq_iff, List.reverse_append, List.reverse_cons, List.append_assoc] at hsplit
    obtain ⟨before, rest, hkeys, -, hrest⟩ := List.zipIdx_eq_append_iff.mp hsplit
    obtain ⟨head, after, rfl, hhead, hafter⟩ := List.zipIdx_eq_cons_iff.mp hrest.symm
    obtain ⟨rfl, rfl⟩ := Prod.mk.inj hhead
    refine ⟨before, after, hkeys, (Nat.zero_add _).symm, fun hmem => ?_⟩
    rw [← List.zipIdx_map_fst (0 + before.length + 1) after, ← hafter] at hmem
    obtain ⟨t, ht, hkey⟩ := List.mem_map.mp hmem
    have hne := hlast t (List.mem_reverse.mp ht)
    rw [hkey, bne_self_eq_false] at hne
    exact nomatch hne
  · rintro ⟨before, after, rfl, rfl, hafter⟩
    refine ⟨(after.zipIdx (before.length + 1)).reverse, before.zipIdx.reverse, ?_, fun t ht => ?_⟩
    · rw [List.zipIdx_append, List.reverse_append, List.zipIdx_cons, List.reverse_cons,
        Nat.zero_add, List.append_assoc]
      rfl
    · refine bne_iff_ne.mpr fun heq => hafter ?_
      rw [heq]
      exact List.fst_mem_of_mem_zipIdx (List.mem_reverse.mp ht)

theorem variableOf?_eq_none_iff : variableOf? keys key = none ↔ key ∉ keys := by
  rw [variableOf?, List.lookup_eq_none_iff]
  constructor
  · intro hnone hmem
    obtain ⟨v, hv⟩ := List.mem_iff_getElem?.mp hmem
    have hne := hnone (key, v) (List.mem_reverse.mpr (List.mk_mem_zipIdx_iff_getElem?.mpr hv))
    rw [bne_self_eq_false] at hne
    exact nomatch hne
  · intro hnot t ht
    refine bne_iff_ne.mpr fun heq => hnot ?_
    rw [heq]
    exact List.fst_mem_of_mem_zipIdx (List.mem_reverse.mp ht)

theorem getElem?_of_variableOf? (h : variableOf? keys key = some v) : keys[v]? = some key := by
  obtain ⟨before, after, rfl, rfl, -⟩ := variableOf?_eq_some_iff.mp h
  rw [List.getElem?_append_right le_rfl, Nat.sub_self, List.getElem?_cons_zero]

theorem lt_of_variableOf? (h : variableOf? keys key = some v) : v < keys.length :=
  (List.getElem?_eq_some_iff.mp (getElem?_of_variableOf? h)).1

/-- The variable is that of a candidate with the key. -/
theorem exists_of_variableOf? (h : variableOf? (candidates.map (·.key)) key = some v) :
    ∃ i, candidates[v]? = some i ∧ i.key = key := by
  have hkey := getElem?_of_variableOf? h
  rwa [List.getElem?_map, Option.map_eq_some_iff] at hkey

/-- Some candidate has a key that has a variable. -/
theorem exists_variableOf? (h : key ∈ keys) : ∃ v, variableOf? keys key = some v :=
  Option.ne_none_iff_exists'.mp fun hnone => variableOf?_eq_none_iff.mp hnone h

/-! ## Candidates that are chosen -/

variable {value : Nat → Bool} {i : Index}

theorem mem_chosenBy : i ∈ chosenBy candidates value ↔ i ∈ candidates
    ∧ ∃ v, variableOf? (candidates.map (·.key)) i.key = some v ∧ value v = true := by
  simp only [chosenBy, List.mem_filter, Option.any_eq_true]

theorem chosenBy_sublist : (chosenBy candidates value).Sublist candidates := List.filter_sublist

end Keys

/-! ## The upkeep of entries -/

/-- The upkeep of an entry whose index is a candidate.  The plans that are left for its support
    queries have their variables from `next` on. -/
structure IsUpkeepOf (candidates : List Index) (next : Nat) (e : MaintenanceCosts Rat)
    (u : Upkeep Rat) : Prop where
  maintenance : u.maintenance = e.maintenance
  index : variableOf? (candidates.map (·.key)) e.maintenance.index.key = some u.index
  support : ∃ label : Nat → String,
    u.support = (supportOver (candidates.map (·.key)) e).map fun costs =>
      Choice.number next (costs.zipIdx.map fun (c, s) => (label s, c))

/-- An entry becomes an upkeep if its index is a candidate, and the later ones then have their
    variables behind those of its choices. -/
theorem upkeepOf_cons (candidates : List Index) (next : Nat) (e : MaintenanceCosts Rat) (n : Nat)
    (entries : List (MaintenanceCosts Rat × Nat)) :
    (variableOf? (candidates.map (·.key)) e.maintenance.index.key = none
        ∧ upkeepOf (candidates.map (·.key)) next ((e, n) :: entries)
          = upkeepOf (candidates.map (·.key)) next entries)
      ∨ ∃ u, IsUpkeepOf candidates next e u
        ∧ upkeepOf (candidates.map (·.key)) next ((e, n) :: entries)
          = u :: upkeepOf (candidates.map (·.key)) (next + Choice.total (u.support.getD []))
              entries := by
  rw [upkeepOf]
  cases hv : variableOf? (candidates.map (·.key)) e.maintenance.index.key with
  | none => exact .inl ⟨rfl, rfl⟩
  | some v =>
      refine .inr ⟨_, ?_, rfl⟩
      exact ⟨rfl, hv, fun s => s!"u{n}_s{s}", rfl⟩

end SelectionProblem

end IndexDesign
