import IndexDesign.Proofs.Selection.Layout
import IndexDesign.Proofs.Selection.Meaning

/-! # Soundness — every solution of the program is a layout

    Values that solve a problem choose the candidates whose keys have variables
    that are true, and take a plan for each query and for each support query of what they
    choose.  That is a layout, and its cost is the objective of the values.

    The plans are read off choice by choice, along the recursion that numbers
    the choices; the support plans entry by entry, along the recursion that
    lists the upkeep. -/

namespace IndexDesign

open ZeroOne

namespace SelectionProblem

variable {indexes candidates : List Index} {value : Nat → Bool}

/-! ## Plans of numbered choices -/

/-- Values that take one plan of each choice take one plan for each query. -/
theorem exists_plans (costs : List (String × StatementCosts Rat)) :
    ∀ first, (∀ c ∈ Choice.number first costs,
        c.count value = 1 ∧ UsesChosen candidates value c) →
      ∃ plans, List.Forall₂ (fun r p => p ∈ r.plans ∧ IsOverChosen candidates value p)
          (costs.map (·.2)) plans
        ∧ ((Choice.number first costs).map (·.cost value)).sum
          = (plans.map Plan.attributedCost).sum := by
  induction costs with
  | nil => intro first _; exact ⟨[], .nil, rfl⟩
  | cons t costs ih =>
      obtain ⟨label, c⟩ := t
      intro first h
      obtain ⟨plans, hplans, hsum⟩ := ih _ fun d hd => h d (List.mem_cons_of_mem _ hd)
      obtain ⟨hcount, huses⟩ := h _ (List.mem_cons_self ..)
      obtain ⟨p, hp⟩ := Choice.exists_takes_of_count hcount
      refine ⟨p :: plans, .cons ⟨Choice.mem_plans_of_takes hp, huses.of_takes hp⟩ hplans, ?_⟩
      rw [Choice.number, List.map_cons, List.sum_cons, hsum, Choice.cost_of_takes_some hp,
        List.map_cons, List.sum_cons]

theorem sum_cost_of_count_eq_zero {cs : List (Choice Rat)} (h : ∀ c ∈ cs, c.count value = 0) :
    (cs.map (·.cost value)).sum = 0 := by
  refine List.sum_eq_zero ?_
  intro x hx
  obtain ⟨c, hc, rfl⟩ := List.mem_map.mp hx
  exact Choice.cost_of_takes_none (Choice.takes_none_of_count (h c hc))

/-! ## Chosen candidates -/

section Entries

variable (hpart : IsPartOf candidates indexes)

include hpart

theorem isCandidate_of_mem_chosenBy :
    ∀ k ∈ chosenBy candidates value, IsCandidate indexes k := by
  intro k hk
  exact isCandidate_of_mem (hpart.mem k (chosenBy_sublist.subset hk))

theorem isChosen_chosenBy_of_not_mem {i : Index} (hi : IsCandidate indexes i)
    (hnot : i.key ∉ candidates.map (·.key)) :
    isChosen (chosenBy candidates value) i = false := by
  refine Bool.eq_false_iff.mpr fun hchosen => ?_
  obtain ⟨k, hk, hkey⟩ :=
    (isChosen_iff_key hpart.distinct (isCandidate_of_mem_chosenBy hpart) hi).mp hchosen
  exact hnot (List.mem_map.mpr ⟨k, chosenBy_sublist.subset hk, hkey⟩)

/-- The variable of its key tells whether an index is chosen. -/
theorem isChosen_chosenBy {i : Index} (hi : IsCandidate indexes i) {v : Nat}
    (hv : variableOf? (candidates.map (·.key)) i.key = some v) :
    isChosen (chosenBy candidates value) i = value v := by
  rw [Bool.eq_iff_iff, isChosen_iff_key hpart.distinct (isCandidate_of_mem_chosenBy hpart) hi]
  constructor
  · rintro ⟨k, hk, hkey⟩
    obtain ⟨-, w, hw, htrue⟩ := mem_chosenBy.mp hk
    rw [hkey, hv] at hw
    rwa [Option.some.inj hw]
  · intro htrue
    obtain ⟨j, hj, hkey⟩ := exists_of_variableOf? hv
    refine ⟨j, mem_chosenBy.mpr ⟨List.mem_of_getElem? hj, v, ?_, htrue⟩, hkey⟩
    rw [hkey]
    exact hv

/-- A plan that has all its candidates left, and these chosen, is over chosen indexes. -/
theorem answers_of_isOverChosen {c : StatementCosts Rat} {p : Plan Rat} (hp : p ∈ c.plans)
    (hover : ∀ i ∈ p.lookedUp, IsCandidate indexes i)
    (hleft : ∀ i ∈ p.lookedUp, i.key ∈ candidates.map (·.key))
    (hchosen : IsOverChosen candidates value p) :
    Answers (chosenBy candidates value) c p := by
  refine ⟨hp, ?_⟩
  intro i hi
  obtain ⟨v, hv⟩ := exists_variableOf? (hleft i hi)
  rw [isChosen_chosenBy hpart (hover i hi) hv]
  exact hchosen i hi v hv

/-- Plans that are left for the queries, over chosen candidates, answer these. -/
theorem answers_of_isPresolved {queries restricted : List (StatementCosts Rat)}
    {maintenance : List (MaintenanceCosts Rat)} {budget : Option Rat} {kept : List Index}
    (hpresolved : IsPresolved (Index.pool indexes) queries maintenance budget kept restricted
      candidates)
    (hover : ∀ c ∈ queries, ∀ p ∈ c.plans, ∀ i ∈ p.lookedUp, IsCandidate indexes i)
    {plans : List (Plan Rat)}
    (hplans : List.Forall₂ (fun r p => p ∈ r.plans ∧ IsOverChosen candidates value p) restricted
      plans) : List.Forall₂ (Answers (chosenBy candidates value)) queries plans := by
  have hboth := forall₂_trans
    ((List.forall₂_and_left _ _).mpr ⟨fun c (hc : c ∈ queries) => hc, hpresolved.plans⟩)
    ((List.forall₂_and_left _ _).mpr ⟨fun r (hr : r ∈ restricted) => hr, hplans⟩)
  refine hboth.imp ?_
  rintro c p ⟨r, ⟨hc, hiff⟩, hr, hp, hchosen⟩
  have hmem := ((hiff p).mp hp).1
  exact answers_of_isOverChosen hpart hmem (hover c hc p hmem) (hpresolved.query r hr p hp) hchosen

/-- So do plans that are left for the support queries of an entry. -/
theorem answers_of_supportOver {e : MaintenanceCosts Rat} (hover : IsEntryOver indexes e)
    {costs : List (StatementCosts Rat)} (hcosts : e.support = some costs)
    {plans : List (Plan Rat)}
    (hplans : List.Forall₂ (fun r p => p ∈ r.plans ∧ IsOverChosen candidates value p)
      (costs.map (·.retain (isWithin (candidates.map (·.key))))) plans) :
    List.Forall₂ (Answers (chosenBy candidates value)) costs plans := by
  rw [List.forall₂_map_left_iff] at hplans
  -- what is taken is one of the entry's own plans, over chosen indexes
  have hmem := (List.forall₂_and_left _ _).mpr ⟨fun c (hc : c ∈ costs) => hc, hplans⟩
  refine hmem.imp ?_
  rintro c p ⟨hc, hp, hchosenOnly⟩
  obtain ⟨hp, hkeys⟩ := mem_retain.mp hp
  exact answers_of_isOverChosen hpart hp (hover.support costs hcosts c hc p hp) hkeys hchosenOnly

/-! ## Support plans -/

/-- The support plans of one entry whose index is a candidate. -/
theorem exists_support_of_maintains {e : MaintenanceCosts Rat} {u : Upkeep Rat} {next : Nat}
    (hover : IsEntryOver indexes e) (hu : IsUpkeepOf candidates next e u)
    (h : Maintains candidates value u) :
    ∃ plans, Supports (chosenBy candidates value) e plans
      ∧ costOfUpkeep value u = entryCost (chosenBy candidates value) e plans := by
  have hchosen : isChosen (chosenBy candidates value) e.maintenance.index = value u.index :=
    isChosen_chosenBy hpart hover.index hu.index
  obtain ⟨label, hsupport⟩ := hu.support
  unfold Supports entryCost costOfUpkeep
  rw [hchosen, hu.maintenance]
  cases hleft : supportOver (candidates.map (·.key)) e with
  | none =>
      rw [hleft] at hsupport
      rw [h.unsupported hsupport, hsupport]
      exact ⟨[], rfl, rfl⟩
  | some restricted =>
      rw [hleft] at hsupport
      have hchoices := h.support _ hsupport
      rw [hsupport]
      cases htrue : value u.index with
      | false =>
          refine ⟨[], rfl, ?_⟩
          refine congrArg (0 + ·) (sum_cost_of_count_eq_zero ?_)
          intro c hc
          rw [(hchoices c hc).1, htrue]
          rfl
      | true =>
          rw [htrue] at hchoices
          obtain ⟨plans, hplans, hsum⟩ := exists_plans _ next hchoices
          obtain ⟨costs, hcosts, rfl, -⟩ := supportOver_eq_some_iff.mp hleft
          refine ⟨plans, ?_, congrArg (e.maintenance.weightedCost + ·) hsum⟩
          rw [map_snd_labels] at hplans
          exact ⟨costs, hcosts, answers_of_supportOver hpart hover hcosts hplans⟩

/-- The support plans of all entries, along the list of the upkeep. -/
theorem exists_support (entries : List (MaintenanceCosts Rat × Nat)) :
    ∀ next, (∀ t ∈ entries, IsEntryOver indexes t.1) →
      (∀ u ∈ upkeepOf (candidates.map (·.key)) next entries, Maintains candidates value u) →
      ∃ support, List.Forall₂ (Supports (chosenBy candidates value)) (entries.map (·.1)) support
        ∧ ((upkeepOf (candidates.map (·.key)) next entries).map (costOfUpkeep value)).sum
          = (List.zipWith (entryCost (chosenBy candidates value)) (entries.map (·.1))
              support).sum := by
  induction entries with
  | nil => intro next _ _; exact ⟨[], .nil, rfl⟩
  | cons t entries ih =>
      obtain ⟨e, n⟩ := t
      intro next hover h
      have hfirst : IsEntryOver indexes e := hover _ (List.mem_cons_self ..)
      have hrest : ∀ t ∈ entries, IsEntryOver indexes t.1 :=
        fun t ht => hover t (List.mem_cons_of_mem _ ht)
      rcases upkeepOf_cons candidates next e n entries with ⟨hv, hupkeep⟩ | ⟨u, hu, hupkeep⟩
      · rw [hupkeep] at h ⊢
        obtain ⟨support, hsupport, hsum⟩ := ih next hrest h
        -- the index of the entry is no candidate any more: the entry costs nothing
        have hnot : isChosen (chosenBy candidates value) e.maintenance.index = false :=
          isChosen_chosenBy_of_not_mem hpart hfirst.index (variableOf?_eq_none_iff.mp hv)
        refine ⟨[] :: support, .cons ?_ hsupport, ?_⟩
        · unfold Supports
          rw [hnot]
          rfl
        · rw [List.map_cons, List.zipWith_cons_cons, List.sum_cons, ← hsum, entryCost, hnot,
            if_neg Bool.false_ne_true, List.map_nil, List.sum_nil, zero_add, zero_add]
      · rw [hupkeep] at h ⊢
        obtain ⟨support, hsupport, hsum⟩ := ih _ hrest
          fun w hw => h w (List.mem_cons_of_mem _ hw)
        obtain ⟨plans, hplans, hcost⟩ :=
          exists_support_of_maintains hpart hfirst hu (h u List.mem_cons_self)
        refine ⟨plans :: support, .cons hplans hsupport, ?_⟩
        rw [List.map_cons, List.sum_cons, hsum, hcost, List.map_cons, List.zipWith_cons_cons,
          List.sum_cons]

end Entries

/-! ## The layout of a solution -/

/-- **SOUNDNESS**: values that solve a presolved problem are a layout of the same cost. -/
theorem exists_isDesign_of_solves {queries : List (StatementCosts Rat)}
    {maintenance : List (MaintenanceCosts Rat)} {budget : Option Rat} {kept : List Index}
    {restricted : List (StatementCosts Rat)}
    (hover : IsOver indexes queries maintenance)
    (hpresolved : IsPresolved (Index.pool indexes) queries maintenance budget kept restricted
      candidates)
    (h : (restrictTo candidates restricted maintenance budget).Solves value) :
    ∃ d : Layout, d.IsDesign indexes queries maintenance budget
      ∧ (restrictTo candidates restricted maintenance budget).costOf value
        = d.cost maintenance := by
  have hsub := hpresolved.candidatesSublist.trans hpresolved.sublist
  have hpart : IsPartOf candidates indexes := isPartOf_of_sublist hover.distinct hsub
  obtain ⟨plans, hplans, hsumPlans⟩ := exists_plans _ _ h.query
  obtain ⟨support, hsupport, hsumSupport⟩ := exists_support hpart maintenance.zipIdx _
    (fun t ht => hover.entry (List.fst_mem_of_mem_zipIdx ht)) h.upkeep
  rw [List.zipIdx_map_fst] at hsupport hsumSupport
  rw [map_snd_labelled] at hplans
  refine ⟨⟨chosenBy candidates value, plans, support⟩, ?_, ?_⟩
  · refine ⟨?_, ?_, ?_, hsupport, ?_⟩
    · exact (List.Nodup.of_map _ hpart.nodup).sublist chosenBy_sublist
    · intro i hi
      exact hsub.subset (chosenBy_sublist.subset hi)
    · exact answers_of_isPresolved hpart hpresolved
        (fun c hc p hp => (hover.query c hc p hp).2) hplans
    · exact h.fits
  · exact congrArg₂ (· + ·) hsumPlans hsumSupport

end SelectionProblem

end IndexDesign
