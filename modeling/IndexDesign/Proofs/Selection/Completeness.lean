import IndexDesign.Proofs.Selection.Soundness

/-! # Completeness — every layout is a solution of the program

    A layout picks a position in each choice: the plan it takes for a query,
    and for a support query the plan if the maintained index is chosen and none
    otherwise.  The picks, listed as the choices are numbered, are the values
    of the plan variables.  The plans of a layout survive both presolve passes,
    since its indexes fit the budget together and so each on its own, and since
    what is left is closed.

    The layout may choose candidates that no plan reaches.  The program leaves
    these out, so its values cost at most as much. -/

namespace IndexDesign

open ZeroOne

namespace Choice

/-! ## Picks -/

/-- Values take the picked plan of each choice. -/
def Agrees (value : Nat → Bool) (picks : List (Choice Rat × Option Nat)) : Prop :=
  ∀ t ∈ picks, ∀ i, i < t.1.plans.length → value (t.1.first + i) = (t.2 == some i)

theorem Agrees.append_left {value : Nat → Bool} {picks more : List (Choice Rat × Option Nat)}
    (h : Agrees value (picks ++ more)) : Agrees value picks :=
  fun t ht => h t (List.mem_append_left _ ht)

theorem Agrees.append_right {value : Nat → Bool} {picks more : List (Choice Rat × Option Nat)}
    (h : Agrees value (picks ++ more)) : Agrees value more :=
  fun t ht => h t (List.mem_append_right _ ht)

/-- The choices that take the given plans, with the cost of these. -/
def Take (value : Nat → Bool) (cs : List (Choice Rat)) (plans : List (Plan Rat)) : Prop :=
  (∀ c ∈ cs, ∃ p ∈ plans, c.Takes value (some p))
    ∧ (cs.map (·.cost value)).sum = (plans.map Plan.attributedCost).sum

/-- Plans of numbered queries can be picked. -/
theorem exists_picks (costs : List (String × StatementCosts Rat)) :
    ∀ first plans, List.Forall₂ (fun r p => p ∈ r.plans) (costs.map (·.2)) plans →
      ∃ picks, picks.map (·.1) = number first costs
        ∧ ∀ value, Agrees value picks → Take value (number first costs) plans := by
  induction costs with
  | nil =>
      intro first plans h
      cases h with
      | nil => exact ⟨[], rfl, fun value _ => ⟨fun c hc => (nomatch hc), rfl⟩⟩
  | cons t costs ih =>
      obtain ⟨label, c⟩ := t
      intro first plans h
      cases h with
      | cons hp hplans =>
          rename_i p plans
          obtain ⟨picks, hpicks, htake⟩ := ih (first + c.plans.length) plans hplans
          obtain ⟨j, hj⟩ := List.mem_iff_getElem?.mp hp
          refine ⟨(⟨label, c.query, c.plans, first⟩, some j) :: picks, ?_, ?_⟩
          · rw [List.map_cons, hpicks]
            rfl
          · intro value hagrees
            obtain ⟨hrest, hsum⟩ := htake value fun t ht => hagrees t (List.mem_cons_of_mem _ ht)
            have hhead : Takes ⟨label, c.query, c.plans, first⟩ value (some p) :=
              takes_of_pick hj (hagrees _ (List.mem_cons_self ..))
            constructor
            · intro d hd
              rcases List.mem_cons.mp hd with rfl | hd
              · exact ⟨p, List.mem_cons_self .., hhead⟩
              · obtain ⟨q, hq, htakes⟩ := hrest d hd
                exact ⟨q, List.mem_cons_of_mem _ hq, htakes⟩
            · rw [number, List.map_cons, List.sum_cons, hsum, cost_of_takes_some hhead,
                List.map_cons, List.sum_cons]

/-- No plan of the choices is picked. -/
def noPicks (cs : List (Choice Rat)) : List (Choice Rat × Option Nat) := cs.map fun c => (c, none)

theorem map_fst_noPicks (cs : List (Choice Rat)) : (noPicks cs).map (·.1) = cs := by
  rw [noPicks, List.map_map]
  exact List.map_id cs

theorem takes_none_of_noPicks {value : Nat → Bool} {cs : List (Choice Rat)}
    (h : Agrees value (noPicks cs)) : ∀ c ∈ cs, c.Takes value none := fun _ hc =>
  takes_none_of_pick (h _ (List.mem_map_of_mem hc))

end Choice

namespace SelectionProblem

open Choice

variable {indexes candidates chosen : List Index} {value : Nat → Bool}

/-! ## Values of chosen candidates -/

theorem isChosen_congr {i j : Index} (h : i.descriptor = j.descriptor) :
    isChosen chosen i = isChosen chosen j := by
  rw [Bool.eq_iff_iff, isChosen_iff, isChosen_iff, h]

/-- The variables of candidates are true where these are chosen. -/
def Reflects (candidates chosen : List Index) (value : Nat → Bool) : Prop :=
  ∀ v i, candidates[v]? = some i → value v = isChosen chosen i

section Entries

variable (hpart : IsPartOf candidates indexes)

include hpart

theorem value_of_reflects (h : Reflects candidates chosen value) {i : Index}
    (hi : IsCandidate indexes i) {v : Nat}
    (hv : variableOf? (candidates.map (·.key)) i.key = some v) :
    value v = isChosen chosen i := by
  obtain ⟨j, hj, hkey⟩ := exists_of_variableOf? hv
  have hmem : j ∈ indexes := hpart.mem j (List.mem_of_getElem? hj)
  rw [h v j hj]
  exact isChosen_congr (descriptor_eq_of_key_eq hpart.distinct (isCandidate_of_mem hmem) hi hkey)

theorem isOverChosen_of_reflects (h : Reflects candidates chosen value) {p : Plan Rat}
    (hover : ∀ i ∈ p.lookedUp, IsCandidate indexes i)
    (hp : ∀ i ∈ p.lookedUp, isChosen chosen i = true) : IsOverChosen candidates value p := by
  intro i hi v hv
  rw [value_of_reflects hpart h (hover i hi) hv]
  exact hp i hi

/-! ## Support plans -/

/-- What a layout needs of an entry: it is about candidates, what answers its support queries is
    over candidates that are left where its index is, and it costs nothing below zero. -/
structure IsEntryKept (indexes candidates chosen : List Index) (e : MaintenanceCosts Rat) : Prop
    extends IsEntryOver indexes e where
  survives : e.maintenance.index.key ∈ candidates.map (·.key) →
    ∀ costs, e.support = some costs → ∀ c ∈ costs, ∀ p, Answers chosen c p →
      ∀ i ∈ p.lookedUp, i.key ∈ candidates.map (·.key)
  nonneg : ∀ plans, Supports chosen e plans → 0 ≤ entryCost chosen e plans

/-- An upkeep is left as it is by values that take none of its support plans. -/
theorem maintains_of_not_chosen {e : MaintenanceCosts Rat} {u : Upkeep Rat}
    {plans : List (Plan Rat)} (hover : IsEntryOver indexes e)
    (hv : variableOf? (candidates.map (·.key)) e.maintenance.index.key = some u.index)
    (hplans : Supports chosen e plans)
    (hchosen : isChosen chosen e.maintenance.index = false)
    (hagrees : Agrees value (noPicks (u.support.getD [])))
    (hreflects : Reflects candidates chosen value) :
    Maintains candidates value u ∧ costOfUpkeep value u = entryCost chosen e plans := by
  unfold Supports at hplans
  rw [hchosen, if_neg Bool.false_ne_true] at hplans
  have hfalse : value u.index = false := by
    rw [value_of_reflects hpart hreflects hover.index hv, hchosen]
  have htakes := takes_none_of_noPicks hagrees
  refine ⟨⟨?_, fun _ => hfalse⟩, ?_⟩
  · intro choices hchoices c hc
    have htake := htakes c (by rw [hchoices]; exact hc)
    rw [hfalse]
    exact ⟨count_of_takes_none htake, usesChosen_of_takes_none htake⟩
  · rw [costOfUpkeep, entryCost, hchosen, hfalse, hplans, sum_cost_of_count_eq_zero fun c hc =>
      count_of_takes_none (htakes c hc)]
    rfl

omit hpart in
/-- What answers the support queries of an entry is left by presolve. -/
theorem supportOver_of_answers {e : MaintenanceCosts Rat} {costs : List (StatementCosts Rat)}
    {plans : List (Plan Rat)} (hkept : IsEntryKept indexes candidates chosen e)
    (hkey : e.maintenance.index.key ∈ candidates.map (·.key)) (hcosts : e.support = some costs)
    (hanswers : List.Forall₂ (Answers chosen) costs plans) :
    supportOver (candidates.map (·.key)) e
        = some (costs.map (·.retain (isWithin (candidates.map (·.key)))))
      ∧ List.Forall₂ (fun r p => p ∈ r.plans)
          (costs.map (·.retain (isWithin (candidates.map (·.key))))) plans := by
  have hmem := (List.forall₂_and_left _ _).mpr ⟨fun c (hc : c ∈ costs) => hc, hanswers⟩
  have hretain : List.Forall₂ (fun r p => p ∈ r.plans)
      (costs.map (·.retain (isWithin (candidates.map (·.key))))) plans := by
    refine List.forall₂_map_left_iff.mpr (hmem.imp ?_)
    rintro c p ⟨hc, hp⟩
    exact mem_retain.mpr ⟨hp.1, hkept.survives hkey costs hcosts c hc p hp⟩
  refine ⟨supportOver_eq_some_iff.mpr ⟨costs, hcosts, rfl, ?_⟩, hretain⟩
  intro c hc hnil
  obtain ⟨p, -, hp⟩ := exists_of_forall₂_left hretain (List.mem_map_of_mem hc)
  rw [hnil] at hp
  exact nomatch hp

/-- The support plans of one entry whose index is a candidate can be picked. -/
theorem exists_picks_of_supports {e : MaintenanceCosts Rat} {u : Upkeep Rat} {next : Nat}
    {plans : List (Plan Rat)} (hkept : IsEntryKept indexes candidates chosen e)
    (hu : IsUpkeepOf candidates next e u) (hplans : Supports chosen e plans) :
    ∃ picks, picks.map (·.1) = u.support.getD []
      ∧ ∀ value, Agrees value picks → Reflects candidates chosen value →
        Maintains candidates value u ∧ costOfUpkeep value u = entryCost chosen e plans := by
  cases hchosen : isChosen chosen e.maintenance.index with
  | false =>
      refine ⟨noPicks (u.support.getD []), map_fst_noPicks _, ?_⟩
      intro value hagrees hreflects
      exact maintains_of_not_chosen hpart hkept.toIsEntryOver hu.index hplans hchosen hagrees
        hreflects
  | true =>
      unfold Supports at hplans
      rw [hchosen, if_pos rfl] at hplans
      obtain ⟨costs, hcosts, hanswers⟩ := hplans
      have hkey : e.maintenance.index.key ∈ candidates.map (·.key) := by
        by_contra hnot
        exact nomatch (variableOf?_eq_none_iff.mpr hnot).symm.trans hu.index
      -- what answers the support queries is left by presolve, so it can be picked
      obtain ⟨hleft, hretain⟩ := supportOver_of_answers hkept hkey hcosts hanswers
      obtain ⟨label, hsupport⟩ := hu.support
      rw [hleft] at hsupport
      have hlabels := map_snd_labels label
        (costs.map (·.retain (isWithin (candidates.map (·.key)))))
      obtain ⟨picks, hpicks, htake⟩ := exists_picks _ next plans (hlabels.symm ▸ hretain)
      refine ⟨picks, by rw [hsupport]; exact hpicks, ?_⟩
      intro value hagrees hreflects
      have htrue : value u.index = true := by
        rw [value_of_reflects hpart hreflects hkept.index hu.index, hchosen]
      obtain ⟨htakes, hsum⟩ := htake value hagrees
      refine ⟨⟨?_, ?_⟩, ?_⟩
      · intro choices hchoices c hc
        rw [hsupport] at hchoices
        rw [← Option.some.inj hchoices] at hc
        obtain ⟨p, hp, htakes⟩ := htakes c hc
        obtain ⟨d, hd, hpd⟩ := exists_of_forall₂_right hanswers hp
        rw [htrue]
        exact ⟨count_of_takes_some htakes, usesChosen_of_takes htakes
          (isOverChosen_of_reflects hpart hreflects
            (hkept.support costs hcosts d hd p hpd.1) hpd.2)⟩
      · intro hnone
        rw [hsupport] at hnone
        exact nomatch hnone
      · rw [costOfUpkeep, entryCost, hchosen, htrue, hu.maintenance, hsupport]
        exact congrArg (e.maintenance.weightedCost + ·) hsum

/-- The support plans of all entries can be picked, and cost no more than the entries do. -/
theorem exists_picks_of_support (entries : List (MaintenanceCosts Rat × Nat)) :
    ∀ next support, (∀ t ∈ entries, IsEntryKept indexes candidates chosen t.1) →
      List.Forall₂ (Supports chosen) (entries.map (·.1)) support →
      ∃ picks, picks.map (·.1)
          = (upkeepOf (candidates.map (·.key)) next entries).flatMap (·.support.getD [])
        ∧ ∀ value, Agrees value picks → Reflects candidates chosen value →
          (∀ u ∈ upkeepOf (candidates.map (·.key)) next entries, Maintains candidates value u)
          ∧ ((upkeepOf (candidates.map (·.key)) next entries).map (costOfUpkeep value)).sum
            ≤ (List.zipWith (entryCost chosen) (entries.map (·.1)) support).sum := by
  induction entries with
  | nil =>
      intro next support _ h
      cases h with
      | nil => exact ⟨[], rfl, fun value _ _ => ⟨fun u hu => (nomatch hu), le_refl _⟩⟩
  | cons t entries ih =>
      obtain ⟨e, n⟩ := t
      intro next support hkept h
      cases h with
      | cons hplans hsupport =>
          rename_i plans support
          have hfirst : IsEntryKept indexes candidates chosen e := hkept _ (List.mem_cons_self ..)
          have hrest := fun next => ih next support
            (fun t ht => hkept t (List.mem_cons_of_mem _ ht)) hsupport
          rcases upkeepOf_cons candidates next e n entries with ⟨-, hupkeep⟩ | ⟨u, hu, hupkeep⟩
          · rw [hupkeep]
            obtain ⟨picks, hpicks, hvalue⟩ := hrest next
            refine ⟨picks, hpicks, ?_⟩
            intro value hagrees hreflects
            obtain ⟨hmaintains, hle⟩ := hvalue value hagrees hreflects
            refine ⟨hmaintains, ?_⟩
            rw [List.map_cons, List.zipWith_cons_cons, List.sum_cons]
            linarith [hfirst.nonneg plans hplans]
          · rw [hupkeep]
            obtain ⟨picks, hpicks, hvalue⟩ := exists_picks_of_supports hpart hfirst hu hplans
            obtain ⟨more, hmore, hvalueMore⟩ := hrest (next + total (u.support.getD []))
            refine ⟨picks ++ more, ?_, ?_⟩
            · rw [List.map_append, hpicks, hmore, List.flatMap_cons]
            · intro value hagrees hreflects
              obtain ⟨hhead, hcost⟩ := hvalue value hagrees.append_left hreflects
              obtain ⟨htail, hle⟩ := hvalueMore value hagrees.append_right hreflects
              refine ⟨List.forall_mem_cons.mpr ⟨hhead, htail⟩, ?_⟩
              rw [List.map_cons, List.sum_cons, hcost, List.map_cons, List.zipWith_cons_cons,
                List.sum_cons]
              exact add_le_add (le_refl _) hle

end Entries

/-! ## Numbers of the variables -/

theorem consecutive_support (keys : List String) (entries : List (MaintenanceCosts Rat × Nat)) :
    ∀ next, Consecutive next ((upkeepOf keys next entries).flatMap (·.support.getD [])) := by
  induction entries with
  | nil => intro next; trivial
  | cons t entries ih =>
      obtain ⟨e, n⟩ := t
      intro next
      unfold upkeepOf
      split
      · exact ih next
      · dsimp only
        rw [List.flatMap_cons]
        refine consecutive_append next ?_ (ih _)
        cases supportOver keys e with
        | none => trivial
        | some costs => exact consecutive_number _ next

theorem index_lt_of_mem_upkeepOf {keys : List String} {u : Upkeep Rat}
    (entries : List (MaintenanceCosts Rat × Nat)) :
    ∀ next, u ∈ upkeepOf keys next entries → u.index < keys.length := by
  induction entries with
  | nil => intro next h; exact nomatch h
  | cons t entries ih =>
      obtain ⟨e, n⟩ := t
      intro next h
      unfold upkeepOf at h
      split at h
      · exact ih next h
      · next v hv =>
        rcases List.mem_cons.mp h with rfl | h
        · exact lt_of_variableOf? hv
        · exact ih _ h

/-- The variables of a built problem are numbered. -/
theorem isNumbered_restrictTo (candidates : List Index) (restricted : List (StatementCosts Rat))
    (maintenance : List (MaintenanceCosts Rat)) (budget : Option Rat) :
    (restrictTo candidates restricted maintenance budget).IsNumbered := by
  constructor
  · exact consecutive_append _ (consecutive_number _ _) (consecutive_support _ _ _)
  · intro u hu
    have hlt := index_lt_of_mem_upkeepOf _ _ hu
    rwa [List.length_map] at hlt

theorem length_vars (problem : SelectionProblem Rat) :
    problem.vars.length
      = problem.indexes.length + total (problem.queries ++ problem.supportChoices) := by
  rw [vars, List.length_append, List.length_map, List.length_zipIdx, List.length_flatMap, total]
  congr 2
  refine List.map_congr_left ?_
  intro c _
  rw [planVariables, List.length_map, List.length_zipIdx]

/-! ## The solution of a layout -/

/-- The values of a layout: of the candidates, whether they are chosen; then those of what is
    picked. -/
def valuesOf (candidates chosen : List Index) (picks : List (Choice Rat × Option Nat)) :
    List Bool :=
  candidates.map (isChosen chosen) ++ bits picks

theorem getD_toArray (values : List Bool) (v : Nat) :
    values.toArray.getD v false = values.getD v false := by
  rw [Array.getD_eq_getD_getElem?, List.getD_eq_getElem?_getD, List.getElem?_toArray]

theorem reflects_valuesOf (candidates chosen : List Index)
    (picks : List (Choice Rat × Option Nat)) :
    Reflects candidates chosen ((valuesOf candidates chosen picks).toArray.getD · false) := by
  intro v i hv
  have hlt : v < candidates.length := (List.getElem?_eq_some_iff.mp hv).1
  show (valuesOf candidates chosen picks).toArray.getD v false = _
  rw [getD_toArray, valuesOf, List.getD_eq_getElem?_getD,
    List.getElem?_append_left (by rwa [List.length_map]), List.getElem?_map, hv]
  rfl

theorem agrees_valuesOf {picks : List (Choice Rat × Option Nat)}
    (h : Consecutive candidates.length (picks.map (·.1))) :
    Agrees ((valuesOf candidates chosen picks).toArray.getD · false) picks := by
  intro t ht i hi
  show (valuesOf candidates chosen picks).toArray.getD _ false = _
  rw [getD_toArray]
  refine value_bits _ ?_ t ht i hi
  rwa [List.length_map]

section Layouts

variable {queries restricted : List (StatementCosts Rat)} {budget : Option Rat}
  {maintenance : List (MaintenanceCosts Rat)} {kept : List Index} {d : Layout}

/-- The indexes of a layout fit the budget on their own. -/
theorem chosen_subset_kept
    (hrestricted : IsRestricted (Index.pool indexes) queries budget kept restricted)
    (h : d.IsDesign indexes queries maintenance budget) : ∀ i ∈ d.chosen, i ∈ kept := by
  intro i hi
  refine hrestricted.fitting i (h.candidates i hi) ?_
  intro b hb
  have hle : (i.size : Rat) ≤ (d.chosen.map Index.size).sum := by
    refine List.single_le_sum ?_ _ (List.mem_map_of_mem hi)
    intro x hx
    obtain ⟨j, -, rfl⟩ := List.mem_map.mp hx
    exact j.size_nonneg
  exact le_trans hle (h.fits b hb)

/-- An answer of a layout is over indexes that fit the budget. -/
theorem key_mem_kept_of_answers
    (hrestricted : IsRestricted (Index.pool indexes) queries budget kept restricted)
    (h : d.IsDesign indexes queries maintenance budget) {c : StatementCosts Rat} {p : Plan Rat}
    (hp : Answers d.chosen c p) : ∀ i ∈ p.lookedUp, i.key ∈ kept.map (·.key) := by
  intro i hi
  obtain ⟨j, hj, hdescriptor⟩ := isChosen_iff.mp (hp.2 i hi)
  exact List.mem_map.mpr ⟨j, chosen_subset_kept hrestricted h j hj,
    Index.key_eq_of_descriptor_eq hdescriptor⟩

theorem entryCost_nonneg (hover : IsOver indexes queries maintenance)
    {e : MaintenanceCosts Rat} (he : e ∈ maintenance) {plans : List (Plan Rat)}
    (h : Supports chosen e plans) : 0 ≤ entryCost chosen e plans := by
  unfold Supports at h
  unfold entryCost
  split at h
  · next hchosen =>
    obtain ⟨costs, hcosts, hanswers⟩ := h
    rw [if_pos hchosen]
    refine add_nonneg (hover.maintained e he).1 (List.sum_nonneg ?_)
    intro x hx
    obtain ⟨p, hp, rfl⟩ := List.mem_map.mp hx
    obtain ⟨c, hc, hanswer⟩ := exists_of_forall₂_right hanswers hp
    exact (hover.support e he costs hcosts c hc p hanswer.1).1
  · next hchosen =>
    rw [if_neg hchosen, h, zero_add]
    exact le_refl (0 : Rat)

/-- What values choose of a layout's indexes takes no more space than the layout. -/
theorem sum_size_le (hdistinct : Index.KeysDistinct indexes)
    (hsub : candidates.Sublist (Index.pool indexes))
    (h : d.IsDesign indexes queries maintenance budget)
    (hreflects : Reflects candidates d.chosen value) :
    ((chosenBy candidates value).map Index.size).sum ≤ ((d.chosen.map Index.size).sum : Rat) := by
  have hnodup := (isPartOf_of_sublist hdistinct hsub).nodup
  have hsubset : chosenBy candidates value ⊆ d.chosen := by
    intro i hi
    obtain ⟨hmem, v, hv, htrue⟩ := mem_chosenBy.mp hi
    obtain ⟨k, hk, hkey⟩ := exists_of_variableOf? hv
    rw [hreflects v k hk] at htrue
    obtain ⟨j, hj, hdescriptor⟩ := isChosen_iff.mp htrue
    have hij : j = i := List.inj_on_of_nodup_map (Index.nodup_keys_pool hdistinct)
      (h.candidates j hj) (hsub.subset hmem)
      ((Index.key_eq_of_descriptor_eq hdescriptor).trans hkey)
    rwa [← hij]
  -- without repetition, fewer indexes take no more space
  obtain ⟨found, hperm, hfound⟩ := List.subperm_of_subset
    ((List.Nodup.of_map _ hnodup).sublist chosenBy_sublist) hsubset
  have hnonneg : ∀ x ∈ d.chosen.map (Index.size (α := Rat)), 0 ≤ x := by
    intro x hx
    obtain ⟨j, -, rfl⟩ := List.mem_map.mp hx
    exact j.size_nonneg
  rw [← (hperm.map _).sum_eq]
  exact (hfound.map _).sum_le_sum hnonneg

/-- **COMPLETENESS**: a layout is given by values that solve the presolved problem and cost no
    more. -/
theorem exists_solves_of_isDesign (hover : IsOver indexes queries maintenance)
    (hpresolved : IsPresolved (Index.pool indexes) queries maintenance budget kept restricted
      candidates)
    (h : d.IsDesign indexes queries maintenance budget) :
    ∃ values : Array Bool,
      values.size = (restrictTo candidates restricted maintenance budget).vars.length
      ∧ (restrictTo candidates restricted maintenance budget).Solves (values.getD · false)
      ∧ (restrictTo candidates restricted maintenance budget).costOf (values.getD · false)
        ≤ d.cost maintenance := by
  have hsub := hpresolved.candidatesSublist.trans hpresolved.sublist
  have hpart : IsPartOf candidates indexes := isPartOf_of_sublist hover.distinct hsub
  have hflip : List.Forall₂ (fun r c => ∀ p, p ∈ r.plans
      ↔ p ∈ c.plans ∧ ∀ i ∈ p.lookedUp, i.key ∈ kept.map (·.key)) restricted queries :=
    hpresolved.plans.flip
  -- the answers of the layout are left by presolve
  have hqueries : List.Forall₂ (fun r p => p ∈ r.plans ∧ ∃ c ∈ queries, Answers d.chosen c p)
      restricted d.plans := by
    refine (forall₂_trans hflip ((List.forall₂_and_left _ _).mpr
      ⟨fun c (hc : c ∈ queries) => hc, h.queries⟩)).imp ?_
    rintro r p ⟨c, hiff, hc, hp⟩
    exact ⟨(hiff p).mpr ⟨hp.1, key_mem_kept_of_answers hpresolved.toIsRestricted h hp⟩, c, hc, hp⟩
  obtain ⟨picks, hpicks, htake⟩ := exists_picks (labelled restricted) candidates.length d.plans
    (by rw [map_snd_labelled]; exact hqueries.imp fun _ _ hp => hp.1)
  -- and so are those of the support queries
  have hsupport := h.maintenance
  rw [← List.zipIdx_map_fst 0 maintenance] at hsupport
  have hkept : ∀ t ∈ maintenance.zipIdx, IsEntryKept indexes candidates d.chosen t.1 := by
    intro t ht
    have hmem := List.fst_mem_of_mem_zipIdx ht
    refine ⟨hover.entry hmem, ?_, fun plans hplans => entryCost_nonneg hover hmem hplans⟩
    intro hleft costs hcosts c hc p hp
    exact hpresolved.support t.1 hmem hleft costs hcosts c hc p hp.1
      (key_mem_kept_of_answers hpresolved.toIsRestricted h hp)
  obtain ⟨more, hmore, hvalue⟩ := exists_picks_of_support hpart maintenance.zipIdx
    (candidates.length + total (number candidates.length (labelled restricted))) d.support hkept
    hsupport
  have hall : (picks ++ more).map (·.1)
      = (restrictTo candidates restricted maintenance budget).queries
        ++ (restrictTo candidates restricted maintenance budget).supportChoices := by
    rw [List.map_append, hpicks, hmore]
    rfl
  -- both halves are about the values that the picks give
  have hreflects := reflects_valuesOf candidates d.chosen (picks ++ more)
  have hagrees : Agrees ((valuesOf candidates d.chosen (picks ++ more)).toArray.getD · false)
      (picks ++ more) := by
    refine agrees_valuesOf ?_
    rw [hall]
    exact (isNumbered_restrictTo candidates restricted maintenance budget).consecutive
  obtain ⟨htakes, hsum⟩ := htake _ hagrees.append_left
  obtain ⟨hmaintains, hle⟩ := hvalue _ hagrees.append_right hreflects
  refine ⟨(valuesOf candidates d.chosen (picks ++ more)).toArray, ?_, ⟨?_, hmaintains, ?_⟩, ?_⟩
  · rw [length_vars, ← hall, ← length_bits, List.size_toArray, valuesOf, List.length_append,
      List.length_map]
    rfl
  · intro c hc
    obtain ⟨p, hp, hpTakes⟩ := htakes c hc
    obtain ⟨r, -, -, q, hq, hanswers⟩ := exists_of_forall₂_right hqueries hp
    exact ⟨count_of_takes_some hpTakes, usesChosen_of_takes hpTakes
      (isOverChosen_of_reflects hpart hreflects
        (hover.query q hq p hanswers.1).2 hanswers.2)⟩
  · intro b hb
    exact le_trans (sum_size_le hover.distinct hsub h hreflects) (h.fits b hb)
  · rw [List.zipIdx_map_fst] at hle
    exact add_le_add hsum.le hle

end Layouts

end SelectionProblem

end IndexDesign
