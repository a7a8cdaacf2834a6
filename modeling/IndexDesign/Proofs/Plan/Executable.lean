import IndexDesign.Proofs.Plan.Enumeration

/-! # Plans are executable and do all the work of their queries

    A plan is executable where every step works on values that are at hand
    when it is taken: those that the query gives, those that the lookups before
    it have fetched, and the identifiers that fetched foreign keys hold.

    A plan does all the work of its query where nothing leaves the state
    without a step that does it: what is to be fetched is stored by an index
    that is looked up, and every condition and the order leave at one step,
    which is a lookup of an index that applies them or a step in memory.

    Both follow from what a state keeps of the query and of the steps before
    it, which every step carries on.  That a condition leaves once and not
    again is said of any part of a state that no step brings back. -/

namespace IndexDesign

variable {α : Type}

/-! ## What is at hand -/

/-- The fields that the steps fetch: those of the indexes that they look up. -/
def fetchedBy (steps : List (Step α)) : FieldSet :=
  (steps.filterMap (·.lookedUp?)).foldl (fun fields index => fields.union index.allFields) ∅

/-- The field is fetched or is the identifier that a fetched foreign key holds. -/
def IsAtHand (fetched : FieldSet) (f : Field) : Prop :=
  f ∈ fetched ∨ f.isId = true ∧ ∃ g ∈ fetched.toList, g.foreignTarget = some f.entity

theorem fetchedBy_append_lookup {steps : List (Step α)} {step : Step α} {index : Index}
    (h : step.lookedUp? = some index) :
    fetchedBy (steps ++ [step]) = (fetchedBy steps).union index.allFields := by
  unfold fetchedBy
  rw [List.filterMap_append, List.filterMap_cons, h, List.foldl_append]
  rfl

theorem fetchedBy_append_inMemory {steps : List (Step α)} {step : Step α}
    (h : step.lookedUp? = none) : fetchedBy (steps ++ [step]) = fetchedBy steps := by
  unfold fetchedBy
  rw [List.filterMap_append, List.filterMap_cons, h, List.filterMap_nil, List.append_nil]

/-- What is fetched is stored by an index that is looked up. -/
theorem exists_of_mem_fetchedBy {steps : List (Step α)} {f : Field} (h : f ∈ fetchedBy steps) :
    ∃ index ∈ steps.filterMap (·.lookedUp?), index.containsField f = true := by
  -- the fold starts from nothing; the induction needs any start
  have hfold : ∀ (indexes : List Index) (fields : FieldSet),
      f ∈ indexes.foldl (fun fields index => fields.union index.allFields) fields →
        f ∈ fields ∨ ∃ index ∈ indexes, index.containsField f = true := by
    intro indexes
    induction indexes with
    | nil => intro fields hf; exact .inl hf
    | cons index indexes ih =>
        intro fields hf
        rcases ih _ hf with hf | ⟨other, hother, hf⟩
        · rcases SortedSet.mem_union.mp hf with hf | hf
          · exact .inl hf
          · exact .inr ⟨index, List.mem_cons_self, hf⟩
        · exact .inr ⟨other, List.mem_cons_of_mem _ hother, hf⟩
  rcases hfold _ _ h with hempty | hstored
  · exact absurd hempty SortedSet.not_mem_empty
  · exact hstored

/-! ## What steps need and what they do -/

/-- The index starts its ordered fields with equality fields of the query, `fixed`. -/
def Index.SplitsAt (index : Index) (q : Query α) (fixed free : List Field) : Prop :=
  index.ordered = fixed ++ free ∧ ∀ g ∈ fixed, g ∈ q.eq

namespace Step

/-- The step can be taken where the given fields are fetched. -/
def CanRun (q : Query α) (fetched : FieldSet) (step : Step α) : Prop :=
  match step.kind with
  | .lookup index _ => ∀ f ∈ index.partition.toList, f ∈ q.eq ∨ IsAtHand fetched f
  | .filter eq range => ∀ f ∈ eq ++ range, IsAtHand fetched f
  | .sort fields => ∀ f ∈ fields, f ∈ fetched
  | .limit _ => True
  | .aggregate aggregates groupBy => ∀ f ∈ aggregates.map (·.field) ++ groupBy, f ∈ fetched
  | .root | .insert _ | .delete _ => False

/-- The step applies the equality condition on the field: it looks up an index by the field or
    by it as one of the ordered fields that are fixed, or it filters by the field. -/
def AppliesEq (q : Query α) (f : Field) (step : Step α) : Prop :=
  match step.kind with
  | .lookup index _ =>
    f ∈ index.partition ∨ ∃ fixed free, index.SplitsAt q fixed free ∧ ∃ g ∈ fixed, key g = key f
  | .filter eq _ => ∃ g ∈ eq, key g = key f
  | _ => False

/-- The step applies the range condition on the field: it looks up an index where the field
    comes after ordered fields that are fixed, or it filters by the field. -/
def AppliesRange (q : Query α) (f : Field) (step : Step α) : Prop :=
  match step.kind with
  | .lookup index _ => ∃ fixed g free, index.SplitsAt q fixed (g :: free) ∧ key g = key f
  | .filter _ range => ∃ g ∈ range, key g = key f
  | _ => False

/-- The step brings the rows into the query's order: it looks up one partition of an index
    whose ordered fields, after some that are fixed, start with those to sort by, or it
    sorts. -/
def AppliesOrder (q : Query α) (step : Step α) : Prop :=
  match step.kind with
  | .lookup index _ => (∀ f ∈ index.partition, f ∈ q.eq)
      ∧ ∃ fixed free, index.SplitsAt q fixed free ∧ q.orderBy.map key <+: free.map key
  | .sort fields => fields = q.orderBy
  | _ => False

end Step

/-- The steps at which something that is present in a state is no longer present in the
    next. -/
def departures (present : PlanState α → Bool) : Transition α → List (Transition α) → List (Step α)
  | _, [] => []
  | t, next :: rest =>
    if present t.state && !present next.state then next.step :: departures present next rest
    else departures present next rest

/-- The run of a query is executable and does all its work. -/
structure IsExecutable [Scalar α] (q : Query α) (run : List (Transition α)) : Prop where
  canRun : ∀ before step after, run.map (·.step) = before ++ step :: after →
    step.CanRun q (fetchedBy before)
  stored : ∀ f, f ∈ q.select ∨ f ∈ q.aggregates.fields ∨ f ∈ q.groupBy →
    ∃ index ∈ (run.map (·.step)).filterMap (·.lookedUp?), index.containsField f = true
  eq : ∀ f ∈ q.eq, ∃ step,
    departures (·.eq.contains f) (Transition.start q) run = [step] ∧ step.AppliesEq q f
  range : ∀ f ∈ q.range, ∃ step,
    departures (·.range.contains f) (Transition.start q) run = [step] ∧ step.AppliesRange q f
  order : q.orderBy ≠ [] → ∃ step,
    departures (!·.orderBy.isEmpty) (Transition.start q) run = [step] ∧ step.AppliesOrder q

/-! ## What a state keeps -/

section Tracks

variable {q : Query α} {steps : List (Step α)} {s : PlanState α}

/-- What the state keeps of the query and of the steps that have led to it. -/
structure PlanState.Tracks (q : Query α) (steps : List (Step α)) (s : PlanState α) : Prop where
  query : s.query = q
  fetched : s.fetched = fetchedBy steps
  /-- What is not left to fetch is fetched. -/
  required : ∀ f ∈ q.required, f ∈ s.fields ∨ f ∈ s.fetched
  eq : ∀ f ∈ s.eq, f ∈ q.eq
  order : s.orderBy = [] ∨ s.orderBy = q.orderBy

theorem tracks_start [Scalar α] (q : Query α) : (PlanState.start q).Tracks q [] :=
  ⟨rfl, rfl, fun _ hf => .inl hf, fun _ hf => hf, .inr rfl⟩

theorem isAtHand_of_isReachable (h : s.Tracks q steps) {f : Field}
    (hf : s.isReachable f = true) : IsAtHand (fetchedBy steps) f := by
  unfold PlanState.isReachable at hf
  rw [h.fetched, Bool.or_eq_true, Bool.and_eq_true, List.any_eq_true] at hf
  rcases hf with hf | ⟨hid, g, hg, htarget⟩
  · exact .inl hf
  · exact .inr ⟨hid, g, hg, eq_of_beq htarget⟩

/-- The fixed ordered fields of an index are equality fields of the query. -/
theorem splitsAt_of_tracks (h : s.Tracks q steps) (index : Index) :
    index.SplitsAt q (s.fixedOrdered index) (s.freeOrdered index) := by
  constructor
  · exact (List.take_append_drop _ _).symm
  · intro g hg
    have hfixed : s.fixedOrdered index = index.ordered.takeWhile s.eq.contains :=
      (List.prefix_iff_eq_take.mp (List.takeWhile_prefix _)).symm
    rw [hfixed] at hg
    exact h.eq g (List.mem_takeWhile_imp hg)

end Tracks

namespace Planner

variable [Scalar α] {p : Planner α} {q : Query α} {path steps : List (Step α)}
  {t next : Transition α}

/-- Every step carries on what a state keeps. -/
theorem tracks_of_follows (ht : t.state.Tracks q steps) (h : p.Follows path t next) :
    next.state.Tracks q (steps ++ [next.step]) := by
  rcases isInMemory_or_isLookup h with hmemory | ⟨index, -, covered, hlookup⟩
  · refine ⟨hmemory.query.trans ht.query, ?_, ?_, fun f hf => ht.eq f (hmemory.eq f hf), ?_⟩
    · rw [fetchedBy_append_inMemory hmemory.lookedUp, hmemory.fetched, ht.fetched]
    · rw [hmemory.fields, hmemory.fetched]
      exact ht.required
    · rcases hmemory.order with hnil | hsame
      · exact .inl hnil
      · rw [hsame]
        exact ht.order
  · have hstep := hlookup.lookedUp
    obtain ⟨graph, joins, rows, lookups, hstate⟩ := t.state.afterLookup_eq index covered
    rw [hlookup.state, hstate]
    refine ⟨ht.query, ?_, ?_, ?_, ?_⟩
    · rw [fetchedBy_append_lookup hstep, ← ht.fetched]
    · -- What the index brings is fetched now; the rest is left as before.
      intro f hf
      by_cases hbrought : f ∈ index.allFields
      · exact .inr (SortedSet.mem_union.mpr (.inr hbrought))
      · rcases ht.required f hf with hleft | hfetched
        · exact .inl (SortedSet.mem_diff.mpr ⟨hleft, hbrought⟩)
        · exact .inr (SortedSet.mem_union.mpr (.inl hfetched))
    · intro f hf
      exact ht.eq f (SortedSet.mem_diff.mp hf).1
    · dsimp only
      split
      · exact .inl rfl
      · exact ht.order

/-- Every step works on what is at hand. -/
theorem canRun_of_follows (ht : t.state.Tracks q steps) (h : p.Follows path t next) :
    next.step.CanRun q (fetchedBy steps) := by
  unfold Step.CanRun
  cases h with
  | filter h =>
      obtain ⟨-, -, hkind, -⟩ := Transition.filter_spec h
      rw [hkind]
      intro f hf
      refine isAtHand_of_isReachable ht ?_
      rcases List.mem_append.mp hf with hf | hf
      · exact (List.mem_filter.mp hf).2
      · exact (List.mem_filter.mp hf).2
  | sort h =>
      obtain ⟨-, -, hfetched, -, hkind, -⟩ := Transition.sort_spec h
      rw [hkind, ← ht.fetched]
      exact List.all_eq_true.mp hfetched
  | limit h =>
      obtain ⟨-, limit, -, -, -, hkind, -⟩ := Transition.limit_spec h
      rw [hkind]
      trivial
  | aggregate h =>
      obtain ⟨-, hfetched, -, hkind, -⟩ := Transition.aggregate_spec h
      rw [hkind, ← ht.fetched]
      exact List.all_eq_true.mp hfetched
  | lookup index _ _ _ h =>
      obtain ⟨covered, hlookup⟩ := Transition.lookup_spec h
      rw [hlookup.kind]
      intro f hf
      rcases (Bool.or_eq_true _ _).mp (hlookup.bound f hf) with hgiven | hreachable
      · rw [PlanState.given, ht.query] at hgiven
        exact .inl hgiven
      · exact .inr (isAtHand_of_isReachable ht hreachable)

/-! ## Work that leaves once -/

/-- No step brings back what is `present`, an answered state is without it, and the steps that
    take it out are those that apply it. -/
structure IsTakenOutBy (p : Planner α) (q : Query α) (present : PlanState α → Bool)
    (applies : Step α → Prop) : Prop where
  stays : ∀ {steps path t next}, t.state.Tracks q steps → p.Follows path t next →
    present t.state = false → present next.state = false
  applied : ∀ {steps path t next}, t.state.Tracks q steps → p.Follows path t next →
    present t.state = true → present next.state = false → applies next.step
  done : ∀ {s : PlanState α}, s.isAnswered = true → present s = false

section Departures

variable {present : PlanState α → Bool} {applies : Step α → Prop}

theorem departures_of_absent (hwork : p.IsTakenOutBy q present applies)
    (run : List (Transition α)) :
    ∀ path t steps, p.IsRun path t run → t.state.Tracks q steps → present t.state = false →
      departures present t run = [] := by
  induction run with
  | nil => intro path t steps _ _ _; rfl
  | cons next rest ih =>
      intro path t steps hrun ht habsent
      obtain ⟨-, hfollows, hrest⟩ := hrun
      unfold departures
      rw [habsent, Bool.false_and, if_neg Bool.false_ne_true]
      exact ih _ next _ hrest (tracks_of_follows ht hfollows) (hwork.stays ht hfollows habsent)

/-- **WORK IS DONE ONCE**: what is present at the start of a run leaves at one step, and that
    step applies it. -/
theorem exists_departure (hwork : p.IsTakenOutBy q present applies)
    (run : List (Transition α)) :
    ∀ path t steps, p.IsRun path t run → t.state.Tracks q steps → present t.state = true →
      ∃ step, departures present t run = [step] ∧ applies step := by
  induction run with
  | nil =>
      intro path t steps hrun _ hpresent
      rw [hwork.done hrun] at hpresent
      exact nomatch hpresent
  | cons next rest ih =>
      intro path t steps hrun ht hpresent
      obtain ⟨-, hfollows, hrest⟩ := hrun
      have htracks := tracks_of_follows ht hfollows
      unfold departures
      rw [hpresent, Bool.true_and]
      -- either it leaves later, or at this step, and then nothing brings it back
      cases hnext : present next.state with
      | true =>
          rw [Bool.not_true, if_neg Bool.false_ne_true]
          exact ih _ next _ hrest htracks hnext
      | false =>
          refine ⟨next.step, ?_, hwork.applied ht hfollows hpresent hnext⟩
          rw [Bool.not_false, if_pos rfl, departures_of_absent hwork rest _ next _ hrest htracks
            hnext]

end Departures

/-! ## Conditions -/

/-- The transition takes fields out of the `work` of a state, and its step applies them. -/
def TakesOut (work : PlanState α → FieldSet) (applies : Field → Step α → Prop) (s : PlanState α)
    (next : Transition α) : Prop :=
  ∃ out : FieldSet, (∀ f, f ∈ work next.state ↔ f ∈ work s ∧ f ∉ out)
    ∧ ∀ f ∈ out, applies f next.step

omit [Scalar α] in
theorem takesOut_of_eq {work : PlanState α → FieldSet} {applies : Field → Step α → Prop}
    {s : PlanState α} (h : work next.state = work s) : TakesOut work applies s next := by
  refine ⟨∅, ?_, fun f hf => absurd hf SortedSet.not_mem_empty⟩
  intro f
  rw [h]
  exact ⟨fun hf => ⟨hf, SortedSet.not_mem_empty⟩, fun hf => hf.1⟩

theorem isTakenOutBy_of_takesOut {work : PlanState α → FieldSet}
    {applies : Field → Step α → Prop}
    (hstep : ∀ {steps path t next}, t.state.Tracks q steps → p.Follows path t next →
      TakesOut work applies t.state next)
    (hdone : ∀ {s : PlanState α}, s.isAnswered = true → (work s).isEmpty = true) (f : Field) :
    p.IsTakenOutBy q (fun s => (work s).contains f) (applies f) := by
  constructor
  · intro steps path t next ht hfollows habsent
    obtain ⟨out, hleft, -⟩ := hstep ht hfollows
    rw [SortedSet.contains_eq_false_iff] at habsent ⊢
    exact fun hf => habsent ((hleft f).mp hf).1
  · intro steps path t next ht hfollows hpresent habsent
    obtain ⟨out, hleft, happlies⟩ := hstep ht hfollows
    rw [SortedSet.contains_eq_false_iff] at habsent
    refine happlies f (not_not.mp fun hnot => ?_)
    exact habsent ((hleft f).mpr ⟨hpresent, hnot⟩)
  · intro s hanswered
    exact SortedSet.contains_eq_false_iff.mpr (SortedSet.isEmpty_iff.mp (hdone hanswered) f)

theorem takesOut_eq (ht : t.state.Tracks q steps) (h : p.Follows path t next) :
    TakesOut (·.eq) (Step.AppliesEq q) t.state next := by
  cases h with
  | filter h =>
      obtain ⟨-, -, hkind, graph, joins, rows, hstate⟩ := Transition.filter_spec h
      refine ⟨t.state.eq.filter t.state.isReachable, fun f => ?_, fun f hf => ?_⟩
      · rw [hstate]
        exact SortedSet.mem_diff
      · rw [Step.AppliesEq, hkind]
        exact SortedSet.mem_iff.mp hf
  | sort h =>
      obtain ⟨-, -, -, -, -, hstate⟩ := Transition.sort_spec h
      exact takesOut_of_eq (by rw [hstate])
  | limit h =>
      obtain ⟨-, limit, -, -, -, -, hstate⟩ := Transition.limit_spec h
      exact takesOut_of_eq (by rw [hstate])
  | aggregate h =>
      obtain ⟨-, -, -, -, rows, hstate⟩ := Transition.aggregate_spec h
      exact takesOut_of_eq (by rw [hstate])
  | lookup index _ _ _ h =>
      obtain ⟨covered, hlookup⟩ := Transition.lookup_spec h
      obtain ⟨graph, joins, rows, lookups, hstate⟩ := t.state.afterLookup_eq index covered
      refine ⟨t.state.appliedEq index, fun f => ?_, fun f hf => ?_⟩
      · rw [hlookup.state, hstate]
        exact SortedSet.mem_diff
      · rw [Step.AppliesEq, hlookup.kind]
        rcases SortedSet.mem_union.mp hf with hf | hf
        · obtain ⟨g, -, hg, hkey⟩ := SortedSet.mem_filter.mp hf
          exact .inl ((SortedSet.mem_congr hkey).mp hg)
        · exact .inr ⟨_, _, splitsAt_of_tracks ht index, SortedSet.mem_ofList.mp hf⟩

theorem takesOut_range (ht : t.state.Tracks q steps) (h : p.Follows path t next) :
    TakesOut (·.range) (Step.AppliesRange q) t.state next := by
  cases h with
  | filter h =>
      obtain ⟨-, -, hkind, graph, joins, rows, hstate⟩ := Transition.filter_spec h
      refine ⟨t.state.range.filter t.state.isReachable, fun f => ?_, fun f hf => ?_⟩
      · rw [hstate]
        exact SortedSet.mem_diff
      · rw [Step.AppliesRange, hkind]
        exact SortedSet.mem_iff.mp hf
  | sort h =>
      obtain ⟨-, -, -, -, -, hstate⟩ := Transition.sort_spec h
      exact takesOut_of_eq (by rw [hstate])
  | limit h =>
      obtain ⟨-, limit, -, -, -, -, hstate⟩ := Transition.limit_spec h
      exact takesOut_of_eq (by rw [hstate])
  | aggregate h =>
      obtain ⟨-, -, -, -, rows, hstate⟩ := Transition.aggregate_spec h
      exact takesOut_of_eq (by rw [hstate])
  | lookup index _ _ _ h =>
      obtain ⟨covered, hlookup⟩ := Transition.lookup_spec h
      obtain ⟨graph, joins, rows, lookups, hstate⟩ := t.state.afterLookup_eq index covered
      refine ⟨SortedSet.ofList (t.state.appliedRange index), fun f => ?_, fun f hf => ?_⟩
      · rw [hlookup.state, hstate]
        exact SortedSet.mem_diff
      · rw [Step.AppliesRange, hlookup.kind]
        obtain ⟨g, hg, hkey⟩ := SortedSet.mem_ofList.mp hf
        have hhead : (t.state.freeOrdered index).head? = some g :=
          Option.mem_toList.mp (List.mem_filter.mp hg).1
        -- the range is on the first ordered field that is not fixed
        obtain ⟨free, hfree⟩ := List.head?_eq_some_iff.mp hhead
        have hsplits := splitsAt_of_tracks ht index
        rw [hfree] at hsplits
        exact ⟨_, g, free, hsplits, hkey⟩

/-! ## The order -/

omit [Scalar α] in
theorem orderBy_of_tracks {s : PlanState α} (h : s.Tracks q steps) (hne : s.orderBy ≠ []) :
    s.orderBy = q.orderBy := by
  rcases h.order with hnil | hsame
  · exact absurd hnil hne
  · exact hsame

/-- A step leaves the order as it is or applies it. -/
theorem order_of_follows (ht : t.state.Tracks q steps) (h : p.Follows path t next) :
    next.state.orderBy = t.state.orderBy
      ∨ next.state.orderBy = [] ∧ next.step.AppliesOrder q := by
  cases h with
  | filter h =>
      obtain ⟨-, -, -, graph, joins, rows, hstate⟩ := Transition.filter_spec h
      exact .inl (by rw [hstate])
  | sort h =>
      obtain ⟨-, horder, -, -, hkind, hstate⟩ := Transition.sort_spec h
      refine .inr ⟨by rw [hstate], ?_⟩
      rw [Step.AppliesOrder, hkind]
      exact orderBy_of_tracks ht horder
  | limit h =>
      obtain ⟨-, limit, -, -, -, -, hstate⟩ := Transition.limit_spec h
      exact .inl (by rw [hstate])
  | aggregate h =>
      obtain ⟨-, -, -, -, rows, hstate⟩ := Transition.aggregate_spec h
      exact .inl (by rw [hstate])
  | lookup index _ _ _ h =>
      obtain ⟨covered, hlookup⟩ := Transition.lookup_spec h
      obtain ⟨graph, joins, rows, lookups, hstate⟩ := t.state.afterLookup_eq index covered
      have hnext : next.state.orderBy
          = if t.state.comesSorted index covered then [] else t.state.orderBy := by
        rw [hlookup.state, hstate]
      cases hsorted : t.state.comesSorted index covered with
      | false =>
          rw [hsorted] at hnext
          exact .inl hnext
      | true =>
          rw [hsorted] at hnext
          refine .inr ⟨hnext, ?_⟩
          rw [PlanState.comesSorted, Bool.and_eq_true, Bool.and_eq_true, Bool.and_eq_true,
            Bool.not_eq_true', List.isEmpty_eq_false_iff] at hsorted
          obtain ⟨⟨⟨horder, hgiven⟩, -⟩, hstarts⟩ := hsorted
          rw [Step.AppliesOrder, hlookup.kind]
          rw [PlanState.isGivenOnly, PlanState.given, ht.query] at hgiven
          rw [orderBy_of_tracks ht horder] at hstarts
          exact ⟨SortedSet.isSubset_iff.mp hgiven, _, _, splitsAt_of_tracks ht index,
            List.isPrefixOf_iff_prefix.mp hstarts⟩

theorem isTakenOutBy_order : p.IsTakenOutBy q (!·.orderBy.isEmpty) (Step.AppliesOrder q) := by
  constructor
  · intro steps path t next ht hfollows habsent
    rcases order_of_follows ht hfollows with hsame | ⟨hnil, -⟩
    · rw [hsame]
      exact habsent
    · rw [hnil]
      rfl
  · intro steps path t next ht hfollows hpresent habsent
    rcases order_of_follows ht hfollows with hsame | ⟨-, happlies⟩
    · rw [hsame, hpresent] at habsent
      exact nomatch habsent
    · exact happlies
  · intro s hanswered
    rw [(PlanState.isDone_of_isAnsweredFor hanswered).order rfl]
    rfl

/-! ## Runs -/

theorem canRun_of_isRun (run : List (Transition α)) :
    ∀ path t steps, p.IsRun path t run → t.state.Tracks q steps →
      ∀ before step after, run.map (·.step) = before ++ step :: after →
        step.CanRun q (fetchedBy (steps ++ before)) := by
  induction run with
  | nil =>
      intro path t steps _ _ before step after h
      cases before with
      | nil => exact nomatch h
      | cons _ _ => exact nomatch h
  | cons next rest ih =>
      intro path t steps hrun ht before step after h
      obtain ⟨-, hfollows, hrest⟩ := hrun
      cases before with
      | nil =>
          rw [← (List.cons.inj h).1, List.append_nil]
          exact canRun_of_follows ht hfollows
      | cons first before =>
          obtain ⟨hfirst, hafter⟩ := List.cons.inj h
          rw [List.append_cons, ← hfirst]
          exact ih _ next _ hrest (tracks_of_follows ht hfollows) before step after hafter

/-- At the end of a run everything that the query needs is fetched. -/
theorem fetched_of_isRun (run : List (Transition α)) :
    ∀ path t steps, p.IsRun path t run → t.state.Tracks q steps →
      ∀ f ∈ q.required, f ∈ fetchedBy (steps ++ run.map (·.step)) := by
  induction run with
  | nil =>
      intro path t steps hrun ht f hf
      have hfields := (PlanState.isDone_of_isAnsweredFor hrun).fields
      rw [List.map_nil, List.append_nil, ← ht.fetched]
      rcases ht.required f hf with hleft | hfetched
      · exact absurd hleft (SortedSet.isEmpty_iff.mp hfields f)
      · exact hfetched
  | cons next rest ih =>
      intro path t steps hrun ht f hf
      obtain ⟨-, hfollows, hrest⟩ := hrun
      rw [List.map_cons, List.append_cons]
      exact ih _ next _ hrest (tracks_of_follows ht hfollows) f hf

theorem isExecutable_of_isRunOf {run : List (Transition α)} (h : p.IsRunOf q run) :
    IsExecutable q run := by
  have hstart : (Transition.start q).state.Tracks q [] := tracks_start q
  constructor
  · exact canRun_of_isRun run [] _ [] h hstart
  · intro f hf
    refine exists_of_mem_fetchedBy (fetched_of_isRun run [] _ [] h hstart f ?_)
    rcases hf with hf | hf | hf
    · exact SortedSet.mem_union.mpr (.inl (SortedSet.mem_extend.mpr (.inl hf)))
    · refine SortedSet.mem_union.mpr (.inl (SortedSet.mem_extend.mpr (.inr ?_)))
      exact ⟨f, hf, rfl⟩
    · exact SortedSet.mem_union.mpr (.inr hf)
  · intro f hf
    have hwork := isTakenOutBy_of_takesOut (p := p) (q := q) takesOut_eq
      (fun hanswered => (PlanState.isDone_of_isAnsweredFor hanswered).eq) f
    exact exists_departure hwork run [] _ [] h hstart hf
  · intro f hf
    have hwork := isTakenOutBy_of_takesOut (p := p) (q := q) takesOut_range
      (fun hanswered => (PlanState.isDone_of_isAnsweredFor hanswered).range) f
    exact exists_departure hwork run [] _ [] h hstart hf
  · intro hne
    refine exists_departure isTakenOutBy_order run [] _ [] h hstart ?_
    rw [Bool.not_eq_true', List.isEmpty_eq_false_iff]
    exact hne

/-! ## Plans -/

/-- **PLANS ARE EXECUTABLE**: every plan that is returned is that of a run whose steps work on
    what is at hand and do all the work of the query. -/
theorem plan_executable [Rendered α] {tree : PlanTree α} (h : p.plan q = .ok tree) :
    ∀ plan ∈ tree.plans, ∃ run ∈ tree.branches.runs,
      plan = planOf q run ∧ p.IsRunOf q run ∧ IsExecutable q run := by
  intro plan hplan
  rw [plans_eq_map_planOf tree q] at hplan
  obtain ⟨run, hrun, rfl⟩ := List.mem_map.mp hplan
  have hisRun := isRunOf_of_plan h hrun
  exact ⟨run, hrun, rfl, hisRun, isExecutable_of_isRunOf hisRun⟩

/-- The names of a city have a plan, and it sorts them. -/
theorem plan_executable_names :
    ∃ tree, (ofIndexes [cityIndex] .requestCount {}).plan namesQuery = .ok tree
      ∧ ∃ plan ∈ tree.plans, ∃ run ∈ tree.branches.runs, plan = planOf namesQuery run
        ∧ (ofIndexes [cityIndex] .requestCount {}).IsRunOf namesQuery run
        ∧ IsExecutable namesQuery run := by
  have hplanned : ((ofIndexes [cityIndex] (.requestCount : CostModel Rat) {}).plan
      namesQuery).toOption.any (!·.plans.isEmpty) = true := by decide +kernel
  obtain ⟨tree, htree, hplans⟩ := Option.any_eq_true _ _ |>.mp hplanned
  have hok := toOption_eq_some_iff.mp htree
  rw [Bool.not_eq_true', List.isEmpty_eq_false_iff] at hplans
  obtain ⟨plan, hplan⟩ := List.exists_mem_of_ne_nil _ hplans
  exact ⟨tree, hok, plan, hplan, plan_executable hok plan hplan⟩

end Planner

end IndexDesign
