import IndexDesign.Proofs.Plan.Joins
import IndexDesign.Proofs.Statement.Plannable

/-! # The grammar of plans

    Nothing in the search says in which order steps come: each of them only
    tests the state that it is tried at.  But what a step needs, and what it
    leaves, decides what can come right behind it.  A sort, a limit and an
    aggregation need everything before them to be done, so no lookup and no
    filter comes behind them, nor one of them again; and a filter leaves
    nothing for another one to apply.

    A list of steps of which each may come behind the one before it is a word
    of a regular expression.  So this is the shape of plans, once it is known
    that they start with a lookup: at the start nothing is fetched, and there
    is something to fetch.

    An index may aggregate a part of what the query asks for and be accepted.
    But nothing aggregates the rest, since only indexes that do not aggregate
    come behind it.  So in a plan it has aggregated the whole. -/

namespace IndexDesign

variable {α : Type}

/-! ## Kinds of steps -/

/-- The kind of a step, without what it is done with. -/
inductive Work where
  | root
  | lookup
  | filter
  | sort
  | limit
  | aggregate
  | insert
  | delete
  deriving DecidableEq, Repr

/-- The kind of the step. -/
def Step.work (step : Step α) : Work :=
  match step.kind with
  | .root => .root
  | .lookup .. => .lookup
  | .filter .. => .filter
  | .sort _ => .sort
  | .limit _ => .limit
  | .aggregate .. => .aggregate
  | .insert _ => .insert
  | .delete _ => .delete

namespace Work

/-- Whether the second may come right behind the first in a plan. -/
def precedes : Work → Work → Bool
  | .lookup, .lookup | .lookup, .filter | .lookup, .sort | .lookup, .limit
  | .lookup, .aggregate => true
  | .filter, .lookup | .filter, .sort | .filter, .limit | .filter, .aggregate => true
  | .sort, .limit | .sort, .aggregate => true
  | .limit, .aggregate => true
  | _, _ => false

/-- What may come behind a filter may come behind a lookup. -/
theorem lookup_precedes {next : Work} (h : Work.filter.precedes next = true) :
    Work.lookup.precedes next = true := by
  cases next with
  | filter => rfl
  | lookup => rfl
  | sort => rfl
  | limit => rfl
  | aggregate => rfl
  | _ => exact h

/-- The work once. -/
def once (w : Work) : RegularExpression Work := .char w

/-- The work once or not at all. -/
def optional (w : Work) : RegularExpression Work := 1 + once w

/-- The grammar of plans: a lookup; lookups and filters; a sort, a limit and an aggregation, each
    if there is need of it. -/
def grammar : RegularExpression Work :=
  once .lookup * ((once .lookup + once .filter).star
    * (optional .sort * (optional .limit * optional .aggregate)))

/-- What may come behind the work, up to the end of a plan. -/
def rest : Work → RegularExpression Work
  | .lookup | .filter =>
    (once .lookup + once .filter).star
      * (optional .sort * (optional .limit * optional .aggregate))
  | .sort => optional .limit * optional .aggregate
  | .limit => optional .aggregate
  | _ => 1

end Work

/-- A lookup aggregates where its index does. -/
theorem Step.isAggregating_of_lookedUp {step : Step α} {index : Index}
    (h : step.lookedUp? = some index) : step.isAggregating = index.isAggregating := by
  cases hkind : step.kind with
  | lookup found lookups =>
      rw [Step.lookedUp?, hkind] at h
      rw [Step.isAggregating, hkind, Option.some.inj h]
  | _ => rw [Step.lookedUp?, hkind] at h; cases h

/-- What an index that aggregates for a query has to do with the steps behind it. -/
structure AggregatesWhole (q : Query α) (index : Index) (after : List (Step α)) : Prop where
  /-- Only indexes that do not aggregate are looked up behind it. -/
  plain : ∀ later ∈ after, ∃ other, later.lookedUp? = some other ∧ other.isAggregating = false
  aggregates : ∀ a, a ∈ index.aggregates ↔ a ∈ q.aggregates
  groupBy : ∀ f, f ∈ index.groupBy ↔ f ∈ q.groupBy

/-- What the steps of a plan of the query keep to. -/
structure KeepsGrammar (q : Query α) (steps : List (Step α)) : Prop where
  shape : steps.map (·.work) ∈ Work.grammar.matches'
  /-- No filter comes right behind a filter. -/
  apart : (steps.map (·.work)).IsChain fun a b => ¬ (a = .filter ∧ b = .filter)
  /-- No index is looked up twice. -/
  distinct : ((lookedUpBy steps).map (·.descriptor)).Nodup
  /-- At most one step aggregates. -/
  once : steps.countP (·.isAggregating) ≤ 1
  whole : ∀ before step after, steps = before ++ step :: after →
    ∀ index, step.lookedUp? = some index → index.isAggregating = true →
      AggregatesWhole q index after

/-! ## Words of the grammar -/

section Words

variable {w next : Work} {ws : List Work} {r : RegularExpression Work}

theorem nil_mem_optional (w : Work) : [] ∈ (Work.optional w).matches' :=
  (Language.mem_add _ _ _).mpr (.inl Language.nil_mem_one)

theorem mem_optional (w : Work) : [w] ∈ (Work.optional w).matches' :=
  (Language.mem_add _ _ _).mpr (.inr rfl)

theorem mem_optional_mul (h : ws ∈ r.matches') : ws ∈ (Work.optional w * r).matches' :=
  Language.append_mem_mul (nil_mem_optional w) h

theorem cons_mem_optional_mul (h : ws ∈ r.matches') : w :: ws ∈ (Work.optional w * r).matches' :=
  Language.append_mem_mul (mem_optional w) h

theorem mem_star_mul {s : RegularExpression Work} (h : ws ∈ r.matches') :
    ws ∈ (s.star * r).matches' :=
  Language.append_mem_mul (Language.nil_mem_kstar s.matches') h

theorem cons_mem_star_mul {s : RegularExpression Work} (hw : [w] ∈ s.matches')
    (h : ws ∈ (s.star * r).matches') : w :: ws ∈ (s.star * r).matches' := by
  obtain ⟨front, hfront, back, hback, rfl⟩ := Language.mem_mul.mp h
  refine Language.append_mem_mul (a := w :: front) ?_ hback
  exact (mul_kstar_le_kstar : s.matches' * KStar.kstar s.matches' ≤ KStar.kstar s.matches')
    (Language.append_mem_mul hw hfront)

theorem mem_lookup_or_filter (h : w = .lookup ∨ w = .filter) :
    [w] ∈ (Work.once .lookup + Work.once .filter).matches' := by
  rw [RegularExpression.matches'_add, Language.mem_add]
  rcases h with rfl | rfl
  · exact .inl rfl
  · exact .inr rfl

theorem cons_mem_optional_aggregate (hws : ws ∈ Work.aggregate.rest.matches') :
    .aggregate :: ws ∈ (Work.optional .aggregate).matches' := by
  rw [show ws = [] from hws]
  exact mem_optional .aggregate

theorem cons_mem_rest_lookup (h : Work.lookup.precedes next = true)
    (hws : ws ∈ next.rest.matches') : next :: ws ∈ Work.lookup.rest.matches' := by
  cases next with
  | lookup => exact cons_mem_star_mul (mem_lookup_or_filter (.inl rfl)) hws
  | filter => exact cons_mem_star_mul (mem_lookup_or_filter (.inr rfl)) hws
  | sort => exact mem_star_mul (cons_mem_optional_mul hws)
  | limit => exact mem_star_mul (mem_optional_mul (cons_mem_optional_mul hws))
  | aggregate =>
      exact mem_star_mul (mem_optional_mul (mem_optional_mul (cons_mem_optional_aggregate hws)))
  | _ => exact nomatch h

theorem cons_mem_rest (h : w.precedes next = true) (hws : ws ∈ next.rest.matches') :
    next :: ws ∈ w.rest.matches' := by
  match w, next, h with
  | .lookup, _, h => exact cons_mem_rest_lookup h hws
  | .filter, _, h => exact cons_mem_rest_lookup (Work.lookup_precedes h) hws
  | .sort, .limit, _ => exact cons_mem_optional_mul hws
  | .sort, .aggregate, _ => exact mem_optional_mul (cons_mem_optional_aggregate hws)
  | .limit, .aggregate, _ => exact cons_mem_optional_aggregate hws

theorem nil_mem_rest (w : Work) : [] ∈ w.rest.matches' := by
  cases w with
  | lookup => exact mem_star_mul (mem_optional_mul (mem_optional_mul (nil_mem_optional _)))
  | filter => exact mem_star_mul (mem_optional_mul (mem_optional_mul (nil_mem_optional _)))
  | sort => exact mem_optional_mul (nil_mem_optional _)
  | limit => exact nil_mem_optional _
  | _ => rfl

/-- **CHAINS ARE WORDS**: where each work may come behind the one before it, the rest of a list is
    a word of what may come behind its first. -/
theorem mem_rest_of_isChain (ws : List Work) :
    ∀ w, (w :: ws).IsChain (fun a b => a.precedes b = true) → ws ∈ w.rest.matches' := by
  induction ws with
  | nil => intro w _; exact nil_mem_rest w
  | cons next ws ih =>
      intro w h
      obtain ⟨hnext, hrest⟩ := List.isChain_cons_cons.mp h
      exact cons_mem_rest hnext (ih next hrest)

end Words

namespace Planner

variable [Scalar α] {p : Planner α} {q : Query α} {path path' : List (Step α)}
  {t next later : Transition α}

/-! ## What comes behind a step -/

/-- Where the conditions are applied and nothing is left to visit, only the last kinds of work
    are left, as far as there is need of them. -/
theorem work_of_isDone {checks : AnswerChecks} (hdone : t.state.IsDone checks)
    (h : p.Follows path t next) :
    next.step.work = .sort ∧ t.state.orderBy ≠ []
      ∨ next.step.work = .limit ∧ t.state.withinLimit = false
      ∨ next.step.work = .aggregate := by
  cases h with
  | filter h =>
      refine absurd ((Bool.and_eq_true _ _).mpr ⟨?_, ?_⟩) (Transition.filter_spec h).2.1
      · exact SortedSet.isEmpty_filter hdone.eq
      · exact SortedSet.isEmpty_filter hdone.range
  | sort h =>
      obtain ⟨-, horder, -, -, hkind, -⟩ := Transition.sort_spec h
      exact .inl ⟨by rw [Step.work, hkind], horder⟩
  | limit h =>
      obtain ⟨-, limit, -, hwithin, -, hkind, -⟩ := Transition.limit_spec h
      exact .inr (.inl ⟨by rw [Step.work, hkind], hwithin⟩)
  | aggregate h =>
      obtain ⟨-, -, -, hkind, -⟩ := Transition.aggregate_spec h
      exact .inr (.inr (by rw [Step.work, hkind]))
  | lookup index hpool hunused hmore h =>
      obtain ⟨covered, hlookup⟩ := Transition.lookup_spec h
      have hnone := not_lookup_of_joins_nil hdone.joins (.lookup index hpool hunused hmore h)
      rw [hlookup.lookedUp] at hnone
      exact nomatch hnone

/-- A filter leaves no condition that could be applied. -/
theorem not_filter_of_filter (h : Transition.filter p.costs t.state = .ok next) :
    next.state.eq.filter next.state.isReachable = ∅
      ∧ next.state.range.filter next.state.isReachable = ∅ := by
  obtain ⟨-, -, -, graph, joins, rows, hstate⟩ := Transition.filter_spec h
  have hleft : ∀ (s : FieldSet) (keep : Field → Bool),
      (s.diff (s.filter keep)).filter keep = ∅ := by
    intro s keep
    refine SortedSet.eq_of_toList_eq (List.filter_eq_nil_iff.mpr fun f hf hkeep => ?_)
    obtain ⟨hf, hout⟩ := List.mem_filter.mp hf
    have hin : (s.filter keep).contains f = true :=
      SortedSet.mem_of_mem_toList (List.mem_filter.mpr ⟨hf, hkeep⟩)
    rw [hin] at hout
    exact nomatch hout
  rw [hstate]
  exact ⟨hleft _ _, hleft _ _⟩

/-- Everything but a filter may come behind a filter. -/
theorem filter_or_precedes (h : p.Follows path t next) :
    Transition.filter p.costs t.state = .ok next ∧ next.step.work = .filter
      ∨ Work.filter.precedes next.step.work = true := by
  cases h with
  | filter h => exact .inl ⟨h, by rw [Step.work, (Transition.filter_spec h).2.2.1]⟩
  | sort h =>
      obtain ⟨-, -, -, -, hkind, -⟩ := Transition.sort_spec h
      exact .inr (by rw [Step.work, hkind]; rfl)
  | limit h =>
      obtain ⟨-, limit, -, -, -, hkind, -⟩ := Transition.limit_spec h
      exact .inr (by rw [Step.work, hkind]; rfl)
  | aggregate h =>
      obtain ⟨-, -, -, hkind, -⟩ := Transition.aggregate_spec h
      exact .inr (by rw [Step.work, hkind]; rfl)
  | lookup index _ _ _ h =>
      obtain ⟨covered, hlookup⟩ := Transition.lookup_spec h
      exact .inr (by rw [Step.work, hlookup.kind]; rfl)

theorem precedes_of_filter (hnext : Transition.filter p.costs t.state = .ok next)
    (hlater : p.Follows path' next later) :
    next.step.work.precedes later.step.work = true := by
  have hwork : next.step.work = .filter := by rw [Step.work, (Transition.filter_spec hnext).2.2.1]
  rw [hwork]
  rcases filter_or_precedes hlater with ⟨hfilter, -⟩ | hprecedes
  · obtain ⟨heq, hrange⟩ := not_filter_of_filter hnext
    have hsome := (Transition.filter_spec hfilter).2.1
    rw [heq, hrange] at hsome
    exact absurd rfl hsome
  · exact hprecedes

theorem precedes_of_sort (hnext : Transition.sort p.costs t.state = .ok next)
    (hlater : p.Follows path' next later) :
    next.step.work.precedes later.step.work = true := by
  obtain ⟨-, -, -, hanswered, hkind, hstate⟩ := Transition.sort_spec hnext
  have hdone := PlanState.isDone_of_isAnsweredFor hanswered
  have hsorted : next.state.IsDone ⟨false, true, false⟩ := by
    rw [hstate]
    exact ⟨hdone.fields, hdone.eq, hdone.range, hdone.joins, fun _ => rfl, fun h => nomatch h⟩
  rw [show next.step.work = .sort by rw [Step.work, hkind]]
  rcases work_of_isDone hsorted hlater with ⟨-, horder⟩ | ⟨hlimit, -⟩ | haggregate
  · exact absurd (hsorted.order rfl) horder
  · rw [hlimit]
    rfl
  · rw [haggregate]
    rfl

/-- A count of rows is within itself, so a limit is not met again. -/
theorem precedes_of_limit [Scalar.CountsCompare α]
    (hnext : Transition.limit p.costs t.state = .ok next) (hlater : p.Follows path' next later) :
    next.step.work.precedes later.step.work = true := by
  obtain ⟨-, limit, hlimit, -, hanswered, hkind, hstate⟩ := Transition.limit_spec hnext
  have hdone := PlanState.isDone_of_isAnsweredFor hanswered
  have hcut : next.state.IsDone ⟨false, true, false⟩ := by
    rw [hstate]
    exact ⟨hdone.fields, hdone.eq, hdone.range, hdone.joins, hdone.order, fun h => by cases h⟩
  have hwithin : next.state.withinLimit = true := by
    rw [hstate, PlanState.withinLimit]
    show t.state.query.limit.all _ = true
    rw [hlimit]
    exact decide_eq_true (Scalar.CountsCompare.ofCount_le limit)
  rw [show next.step.work = .limit by rw [Step.work, hkind]]
  rcases work_of_isDone hcut hlater with ⟨-, horder⟩ | ⟨-, hover⟩ | haggregate
  · exact absurd (hcut.order rfl) horder
  · rw [hwithin] at hover
    cases hover
  · rw [haggregate]
    rfl

/-- Nothing comes behind an aggregation in memory. -/
theorem not_follows_of_aggregate (hnext : Transition.aggregate p.costs t.state = .ok next) :
    ¬ p.Follows path' next later := by
  intro hlater
  obtain ⟨-, -, hanswered, -, rows, hstate⟩ := Transition.aggregate_spec hnext
  have hjoins : next.state.joins = [] := by
    rw [hstate]
    exact (PlanState.isDone_of_isAnsweredFor hanswered).joins
  obtain ⟨index, hindex, -⟩ := lookup_of_aggregated (by rw [hstate]) hlater
  rw [not_lookup_of_joins_nil hjoins hlater] at hindex
  exact nomatch hindex

/-- **STEPS COME IN ORDER**: of two steps one behind the other, the second may follow the first. -/
theorem precedes_of_follows [Scalar.CountsCompare α] (hnext : p.Follows path t next)
    (hlater : p.Follows path' next later) :
    next.step.work.precedes later.step.work = true := by
  cases hnext with
  | filter h => exact precedes_of_filter h hlater
  | sort h => exact precedes_of_sort h hlater
  | limit h => exact precedes_of_limit h hlater
  | aggregate h => exact absurd hlater (not_follows_of_aggregate h)
  | lookup index _ _ _ h =>
      obtain ⟨covered, hlookup⟩ := Transition.lookup_spec h
      rw [show next.step.work = .lookup by rw [Step.work, hlookup.kind]]
      rcases filter_or_precedes hlater with ⟨-, hfilter⟩ | hprecedes
      · rw [hfilter]
        rfl
      · exact Work.lookup_precedes hprecedes

/-- At the start of a query that asks for something only an index can be looked up. -/
theorem work_of_follows_start (hasks : q.required.isEmpty = false)
    (h : p.Follows path (Transition.start q) next) : next.step.work = .lookup := by
  have hopen : ∀ {checks : AnswerChecks}, ¬ (PlanState.start q).isAnsweredFor checks = true := by
    intro checks hanswered
    have hfields := (PlanState.isDone_of_isAnsweredFor hanswered).fields
    exact Bool.eq_false_iff.mp hasks hfields
  cases h with
  | filter h => exact absurd rfl (Bool.eq_false_iff.mp (settles_of_filter h).1)
  | sort h => exact absurd (Transition.sort_spec h).2.2.2.1 hopen
  | limit h =>
      obtain ⟨-, limit, -, -, hanswered, -, -⟩ := Transition.limit_spec h
      exact absurd hanswered hopen
  | aggregate h => exact absurd (Transition.aggregate_spec h).2.2.1 hopen
  | lookup index _ _ _ h =>
      obtain ⟨covered, hlookup⟩ := Transition.lookup_spec h
      rw [Step.work, hlookup.kind]

theorem isChain_of_isRun [Scalar.CountsCompare α] (run : List (Transition α)) :
    ∀ path t, p.IsRun path t run →
      (run.map (·.step.work)).IsChain fun a b => a.precedes b = true := by
  induction run with
  | nil => intro path t _; exact .nil
  | cons next rest ih =>
      intro path t hrun
      obtain ⟨-, hnext, hrest⟩ := hrun
      cases rest with
      | nil => exact .singleton _
      | cons later rest =>
          exact List.isChain_cons_cons.mpr
            ⟨precedes_of_follows hnext hrest.2.1, ih _ next hrest⟩

/-! ## What is aggregated -/

/-- A step that does not aggregate leaves what there is to aggregate. -/
theorem grouping_of_follows (h : p.Follows path t next) (hplain : next.step.isAggregating = false) :
    next.state.aggregates = t.state.aggregates ∧ next.state.groupBy = t.state.groupBy := by
  cases h with
  | filter h =>
      obtain ⟨-, -, -, graph, joins, rows, hstate⟩ := Transition.filter_spec h
      rw [hstate]
      exact ⟨rfl, rfl⟩
  | sort h =>
      obtain ⟨-, -, -, -, -, hstate⟩ := Transition.sort_spec h
      rw [hstate]
      exact ⟨rfl, rfl⟩
  | limit h =>
      obtain ⟨-, limit, -, -, -, -, hstate⟩ := Transition.limit_spec h
      rw [hstate]
      exact ⟨rfl, rfl⟩
  | aggregate h =>
      obtain ⟨-, -, -, hkind, -⟩ := Transition.aggregate_spec h
      rw [Step.isAggregating, hkind] at hplain
      cases hplain
  | lookup index _ _ _ h =>
      obtain ⟨covered, hlookup⟩ := Transition.lookup_spec h
      obtain ⟨graph, joins, rows, lookups, hafter⟩ := t.state.afterLookup_eq index covered
      rw [Step.isAggregating, hlookup.kind] at hplain
      rw [hlookup.state, hafter]
      dsimp only at hplain ⊢
      rw [hplain]
      exact ⟨rfl, rfl⟩

theorem grouping_of_isRun (run : List (Transition α)) : ∀ path t, p.IsRun path t run →
    (∀ later ∈ run, later.step.isAggregating = false) →
      (run.getLastD t).state.aggregates = t.state.aggregates
        ∧ (run.getLastD t).state.groupBy = t.state.groupBy := by
  induction run with
  | nil => intro path t _ _; exact ⟨rfl, rfl⟩
  | cons next rest ih =>
      intro path t hrun hplain
      obtain ⟨-, hfollows, hrest⟩ := hrun
      obtain ⟨haggregates, hgroupBy⟩ :=
        grouping_of_follows hfollows (hplain next List.mem_cons_self)
      obtain ⟨haggregates', hgroupBy'⟩ :=
        ih _ next hrest fun later hlater => hplain later (List.mem_cons_of_mem _ hlater)
      rw [List.getLastD_cons, haggregates', hgroupBy']
      exact ⟨haggregates, hgroupBy⟩

/-- As long as nothing has aggregated, there is all to aggregate that the query asks for. -/
def KeepsGrouping (q : Query α) (t : Transition α) : Prop :=
  t.state.aggregated = false →
    t.state.aggregates = q.aggregates ∧ t.state.groupBy = q.groupBy

theorem keepsGrouping_of_follows (ht : KeepsGrouping q t) (h : p.Follows path t next) :
    KeepsGrouping q next := by
  intro hnext
  rw [(keepsRules_of_follows h).aggregated, Bool.or_eq_false_iff] at hnext
  obtain ⟨haggregates, hgroupBy⟩ := grouping_of_follows h hnext.2
  rw [haggregates, hgroupBy]
  exact ht hnext.1

theorem grouping_of_isAnswered {s : PlanState α} (h : s.isAnswered = true) :
    s.aggregates.isEmpty = true ∧ s.groupBy.isEmpty = true := by
  simp only [PlanState.isAnswered, PlanState.isAnsweredFor, Bool.and_eq_true, Bool.not_true,
    Bool.false_or] at h
  exact h.1.2

/-- Once something has aggregated, a run goes on only where nothing is left to aggregate: no step
    behind would do it. -/
theorem grouping_of_aggregated {run : List (Transition α)} (h : p.IsRun path t run)
    (haggregated : t.state.aggregated = true) :
    t.state.aggregates.isEmpty = true ∧ t.state.groupBy.isEmpty = true := by
  have hplain : ∀ later ∈ run, later.step.isAggregating = false := by
    intro later hlater
    obtain ⟨found, hfound, hnot⟩ := lookups_of_aggregated run path t h haggregated later hlater
    rw [Step.isAggregating_of_lookedUp hfound, hnot]
  obtain ⟨haggregates, hgroupBy⟩ := grouping_of_isRun run path t h hplain
  rw [← haggregates, ← hgroupBy]
  exact grouping_of_isAnswered (isAnswered_of_isRun run path t h)

/-- **PARTIAL AGGREGATION IS NOT COMPLETED**: an index that aggregates in a run has aggregated the
    whole. -/
theorem aggregatesWhole_of_isRunOf {before after : List (Transition α)} {index : Index}
    (h : p.IsRunOf q (before ++ next :: after)) (hindex : next.step.lookedUp? = some index)
    (haggregating : index.isAggregating = true) :
    AggregatesWhole q index (after.map (·.step)) := by
  obtain ⟨path, t, ht, hfollows, hafter⟩ := exists_of_isRun_append (fun _ => KeepsGrouping q)
    keepsGrouping_of_follows before [] (Transition.start q) (fun _ => ⟨rfl, rfl⟩) h
  rcases isInMemory_or_isLookup hfollows with hmemory | ⟨other, -, covered, hlookup⟩
  · rw [hmemory.lookedUp] at hindex
    exact nomatch hindex
  · rw [hlookup.lookedUp] at hindex
    obtain rfl := Option.some.inj hindex
    obtain ⟨hfresh, haggregates, hgroupBy⟩ := PlanState.part_of_admits hlookup.admits haggregating
    obtain ⟨hallAggregates, hallGroupBy⟩ := ht hfresh
    rw [hallAggregates] at haggregates
    rw [hallGroupBy] at hgroupBy
    have hnext : next.state.aggregated = true := by
      rw [(keepsRules_of_follows hfollows).aggregated, Step.isAggregating, hlookup.kind]
      exact (Bool.or_eq_true _ _).mpr (.inr haggregating)
    obtain ⟨hnone, hnone'⟩ := grouping_of_aggregated hafter hnext
    obtain ⟨graph, joins, rows, lookups, hstate⟩ := t.state.afterLookup_eq other covered
    rw [hlookup.state, hstate] at hnone hnone'
    dsimp only at hnone hnone'
    rw [haggregating, if_pos rfl, SortedSet.isEmpty_iff] at hnone hnone'
    rw [hallAggregates] at hnone
    rw [hallGroupBy] at hnone'
    refine ⟨?_, fun a => ⟨haggregates a, fun ha => ?_⟩, fun f => ⟨hgroupBy f, fun hf => ?_⟩⟩
    · intro later hlater
      obtain ⟨transition, htransition, rfl⟩ := List.mem_map.mp hlater
      exact lookups_of_aggregated after _ next hafter hnext transition htransition
    · exact not_not.mp fun hnot => hnone a (SortedSet.mem_diff.mpr ⟨ha, hnot⟩)
    · exact not_not.mp fun hnot => hnone' f (SortedSet.mem_diff.mpr ⟨hf, hnot⟩)

/-- At most one step aggregates, and the state knows whether one has. -/
theorem countP_of_follows
    (ht : path.countP (·.isAggregating) = if t.state.aggregated then 1 else 0)
    (h : p.Follows path t next) : (next.step :: path).countP (·.isAggregating)
      = if next.state.aggregated then 1 else 0 := by
  rw [(keepsRules_of_follows h).aggregated, List.countP_cons, ht]
  cases haggregated : t.state.aggregated with
  | false => simp
  | true =>
      obtain ⟨index, hindex, hplain⟩ := lookup_of_aggregated haggregated h
      rw [Step.isAggregating_of_lookedUp hindex, hplain]
      rfl

/-! ## Indexes that are looked up -/

/-- A lookup is of an index that the branch has not used. -/
theorem nodup_of_follows (ht : ((lookedUpBy path).map (·.descriptor)).Nodup)
    (h : p.Follows path t next) :
    ((lookedUpBy (next.step :: path)).map (·.descriptor)).Nodup := by
  have hmemory : Transition.IsInMemory t.state next →
      ((lookedUpBy (next.step :: path)).map (·.descriptor)).Nodup := by
    intro hmemory
    rw [lookedUpBy, List.filterMap_cons_none hmemory.lookedUp]
    exact ht
  cases h with
  | filter h => exact hmemory (Transition.isInMemory_filter h)
  | sort h => exact hmemory (Transition.isInMemory_sort h)
  | limit h => exact hmemory (Transition.isInMemory_limit h)
  | aggregate h => exact hmemory (Transition.isInMemory_aggregate h)
  | lookup index _ hunused _ h =>
      obtain ⟨covered, hlookup⟩ := Transition.lookup_spec h
      rw [lookedUpBy, List.filterMap_cons_some hlookup.lookedUp, List.map_cons, List.nodup_cons]
      refine ⟨fun hmem => ?_, ht⟩
      obtain ⟨used, hused, hsame⟩ := List.mem_map.mp hmem
      exact hunused used hused hsame

/-! ## Plans -/

theorem shape_of_isRunOf [Scalar.CountsCompare α] (hasks : q.required.isEmpty = false)
    {run : List (Transition α)} (h : p.IsRunOf q run) :
    run.map (·.step.work) ∈ Work.grammar.matches' := by
  have hchain := isChain_of_isRun run [] _ h
  cases run with
  | nil =>
      have hfields := (PlanState.isDone_of_isAnsweredFor h).fields
      exact absurd hfields (Bool.eq_false_iff.mp hasks)
  | cons first rest =>
      rw [List.map_cons, work_of_follows_start hasks h.2.1] at hchain ⊢
      have hfirst : [.lookup] ∈ (Work.once .lookup).matches' := rfl
      exact Language.append_mem_mul hfirst (mem_rest_of_isChain _ _ hchain)

theorem keepsGrammar_of_isRunOf [Scalar.CountsCompare α] (hasks : q.required.isEmpty = false)
    {run : List (Transition α)} (h : p.IsRunOf q run) : KeepsGrammar q (run.map (·.step)) := by
  have hworks : (run.map (·.step)).map (·.work) = run.map (·.step.work) := List.map_map
  constructor
  · rw [hworks]
    exact shape_of_isRunOf hasks h
  · rw [hworks]
    refine (isChain_of_isRun run [] _ h).imp fun a b hab => ?_
    rintro ⟨rfl, rfl⟩
    exact nomatch hab
  · have hnodup := holds_of_isRun (fun path _ => ((lookedUpBy path).map (·.descriptor)).Nodup)
      nodup_of_follows run [] _ List.nodup_nil h
    rw [List.append_nil, lookedUpBy, List.filterMap_reverse, List.map_reverse,
      List.nodup_reverse] at hnodup
    exact hnodup
  · have hcount := holds_of_isRun
      (fun path t => path.countP (·.isAggregating) = if t.state.aggregated then 1 else 0)
      countP_of_follows run [] (Transition.start q) rfl h
    rw [List.append_nil, List.countP_reverse] at hcount
    rw [hcount]
    split
    · exact le_refl 1
    · exact Nat.zero_le 1
  · intro before step after hsplit index hindex haggregating
    obtain ⟨front, back, rfl, -, hback⟩ := List.map_eq_append_iff.mp hsplit
    obtain ⟨next, rest, rfl, rfl, rfl⟩ := List.map_eq_cons_iff.mp hback
    exact aggregatesWhole_of_isRunOf h hindex haggregating

/-- **THE GRAMMAR OF PLANS**: every plan that is returned looks up an index first, then looks up
    and filters, and sorts, cuts off and aggregates at its end; no index is looked up twice; and
    what aggregates does so once, an index that aggregates as much as the query asks for. -/
theorem plan_grammar [Rendered α] [Scalar.CountsCompare α] (hq : q.IsPlannable)
    {tree : PlanTree α} (h : p.plan q = .ok tree) :
    ∀ plan ∈ tree.plans, KeepsGrammar q plan.steps := by
  intro plan hplan
  obtain ⟨run, -, rfl, hrun⟩ := exists_run_of_mem_plans h hplan
  exact keepsGrammar_of_isRunOf hq.asks hrun

/-- The plan that counts the users of a city and then looks for the topic of their messages. -/
theorem plan_grammar_topic :
    topicQuery.IsPlannable
      ∧ Scalar.CountsCompare Rat
      ∧ ∃ tree, topicPlanner.plan topicQuery = .ok tree
        ∧ ∃ plan ∈ tree.plans, plan.steps.map (·.work) = [.lookup, .lookup]
          ∧ plan.steps.countP (·.isAggregating) = 1 ∧ KeepsGrammar topicQuery plan.steps := by
  have hbuild : Query.build (userModel.add tweetEntity) topicDraft = .ok topicQuery := rfl
  have hplannable := Query.isPlannable_of_build hbuild
  have hplanned : (topicPlanner.plan topicQuery).toOption.any (·.plans.any fun plan =>
      plan.steps.map (·.work) == [.lookup, .lookup]
        && plan.steps.countP (·.isAggregating) == 1) = true := by
    decide +kernel
  obtain ⟨tree, htree, hplans⟩ := Option.any_eq_true _ _ |>.mp hplanned
  obtain ⟨plan, hplan, hsteps⟩ := List.any_eq_true.mp hplans
  rw [Bool.and_eq_true, beq_iff_eq, beq_iff_eq] at hsteps
  have hok := toOption_eq_some_iff.mp htree
  exact ⟨hplannable, inferInstance, tree, hok, plan, hplan, hsteps.1, hsteps.2,
    plan_grammar hplannable hok plan hplan⟩

end Planner

end IndexDesign
