import IndexDesign.Proofs.Doubles
import IndexDesign.Proofs.Entity
import IndexDesign.Proofs.Graph.Split
import IndexDesign.Proofs.Index.Build

/-! # Accepted indexes

    The rules for indexes are checked on what is left of a draft without
    repetitions.  They hold of it where they hold of the lists as they are
    given, because a rule asks for columns only, and every column that is given
    is left in one of the parts.

    One rule is checked by a count: the walks from the first entity have to meet
    as many names as there are entities.  Where an edge leads out of the graph
    the count has names that are no entities, so it says nothing about these:
    an index can be refused though its entities are joined, and accepted though
    they are not.

    What is left is a normal form: the parts are disjoint, and the order has
    each of its columns where it is first listed.  The numbers of partitions
    and rows that are estimated from it lie between one and the rows of the
    largest entity. -/

namespace IndexDesign.Index

variable {d : Draft} {i : Index} {f g : Field} {fs : List Field} {taken : FieldSet}

/-! ## Columns -/

/-- The list has a field of the same column. -/
def Lists (fs : List Field) (f : Field) : Prop := ∃ g ∈ fs, Keyed.key g = Keyed.key f

theorem lists_congr (h : Keyed.key f = Keyed.key g) : Lists fs f ↔ Lists fs g := by
  rw [Lists, Lists, h]

theorem lists_append {gs : List Field} : Lists (fs ++ gs) f ↔ Lists fs f ∨ Lists gs f := by
  simp only [Lists, List.mem_append, or_and_right, exists_or]

theorem lists_of_mem (h : f ∈ fs) : Lists fs f := ⟨f, h, rfl⟩

theorem entity_eq_of_key_eq (h : Keyed.key f = Keyed.key g) : f.entity = g.entity :=
  (List.cons.inj h).1

/-- The columns that are left are those that were given and not taken. -/
theorem lists_distinctOutside_iff (h : f ∉ taken) :
    Lists (distinctOutside taken fs) f ↔ Lists fs f := by
  constructor
  · rintro ⟨g, hg, hkey⟩
    exact ⟨g, mem_of_mem_distinctOutside fs taken hg, hkey⟩
  · rintro ⟨g, hg, hkey⟩
    rcases exists_mem_distinctOutside fs taken hg with htaken | ⟨x, hx, hkey'⟩
    · exact absurd ((SortedSet.mem_congr hkey).mp htaken) h
    · exact ⟨x, hx, hkey'.trans hkey⟩

theorem not_lists_distinctOutside (h : f ∈ taken) : ¬ Lists (distinctOutside taken fs) f := by
  rintro ⟨g, hg, hkey⟩
  exact not_mem_of_mem_distinctOutside fs taken hg ((SortedSet.mem_congr hkey).mpr h)

/-- The place at which the column of a field is first listed. -/
def firstPlace (fs : List Field) (f : Field) : Nat := fs.findIdx (Keyed.key · == Keyed.key f)

/-- The first field of the column in the list. -/
def firstOf (fs : List Field) (f : Field) : Option Field :=
  fs.find? (Keyed.key · == Keyed.key f)

theorem firstOf_cons_self (h : Keyed.key g = Keyed.key f) : firstOf (g :: fs) f = some g := by
  rw [firstOf, List.find?_cons, beq_iff_eq.mpr h]

theorem firstOf_cons_of_ne (h : Keyed.key g ≠ Keyed.key f) :
    firstOf (g :: fs) f = firstOf fs f := by
  rw [firstOf, List.find?_cons, beq_eq_false_iff_ne.mpr h]
  rfl

theorem firstPlace_cons_self (h : Keyed.key g = Keyed.key f) : firstPlace (g :: fs) f = 0 := by
  rw [firstPlace, List.findIdx_cons, beq_iff_eq.mpr h]
  rfl

theorem firstPlace_cons_of_ne (h : Keyed.key g ≠ Keyed.key f) :
    firstPlace (g :: fs) f = firstPlace fs f + 1 := by
  rw [firstPlace, List.findIdx_cons, beq_eq_false_iff_ne.mpr h]
  rfl

/-- What is left of a list are the fields that are the first of their column, unless taken. -/
theorem mem_distinctOutside_iff (fs : List Field) : ∀ taken,
    f ∈ distinctOutside taken fs ↔ f ∉ taken ∧ firstOf fs f = some f := by
  induction fs with
  | nil => intro taken; simp [distinctOutside, firstOf]
  | cons g fs ih =>
      intro taken
      by_cases hkey : Keyed.key g = Keyed.key f
      · rw [firstOf_cons_self hkey]
        by_cases hg : g ∈ taken
        · rw [distinctOutside_cons_of_mem hg, ih]
          have hf : f ∈ taken := (SortedSet.mem_congr hkey).mp hg
          exact iff_of_false (fun h => h.1 hf) fun h => h.1 hf
        · rw [distinctOutside_cons_of_not_mem hg, List.mem_cons, ih]
          have hf : f ∉ taken := fun hf => hg ((SortedSet.mem_congr hkey).mpr hf)
          have hinsert : f ∈ taken.insert g := SortedSet.mem_insert.mpr (.inl hkey)
          constructor
          · rintro (rfl | h)
            · exact ⟨hf, rfl⟩
            · exact absurd hinsert h.1
          · rintro ⟨-, hsome⟩
            exact .inl (Option.some.inj hsome).symm
      · rw [firstOf_cons_of_ne hkey]
        by_cases hg : g ∈ taken
        · rw [distinctOutside_cons_of_mem hg, ih]
        · rw [distinctOutside_cons_of_not_mem hg, List.mem_cons, ih, SortedSet.mem_insert]
          constructor
          · rintro (rfl | ⟨hnot, hfirst⟩)
            · exact absurd rfl hkey
            · exact ⟨fun hf => hnot (.inr hf), hfirst⟩
          · rintro ⟨hnot, hfirst⟩
            exact .inr ⟨fun h => h.elim hkey hnot, hfirst⟩

/-- What is left of a list keeps the order in which the columns are first listed. -/
theorem pairwise_distinctOutside (fs : List Field) : ∀ taken,
    (distinctOutside taken fs).Pairwise fun f g => firstPlace fs f < firstPlace fs g := by
  induction fs with
  | nil => intro taken; exact .nil
  | cons g fs ih =>
      intro taken
      -- the columns that are left differ from one that is taken
      have hlater : ∀ taken : FieldSet, g ∈ taken →
          (distinctOutside taken fs).Pairwise
            fun f f' => firstPlace (g :: fs) f < firstPlace (g :: fs) f' := by
        intro taken hg
        have hne : ∀ f ∈ distinctOutside taken fs, Keyed.key g ≠ Keyed.key f := by
          intro f hf hkey
          exact not_mem_of_mem_distinctOutside fs taken hf ((SortedSet.mem_congr hkey).mp hg)
        refine (ih taken).imp_of_mem fun {f f'} hf hf' hlt => ?_
        rw [firstPlace_cons_of_ne (hne f hf), firstPlace_cons_of_ne (hne f' hf')]
        omega
      by_cases hg : g ∈ taken
      · rw [distinctOutside_cons_of_mem hg]
        exact hlater taken hg
      · rw [distinctOutside_cons_of_not_mem hg]
        have hinsert : g ∈ taken.insert g := SortedSet.mem_insert.mpr (.inl rfl)
        refine List.pairwise_cons.mpr ⟨fun f hf => ?_, hlater _ hinsert⟩
        have hne : Keyed.key g ≠ Keyed.key f := fun hkey =>
          not_mem_of_mem_distinctOutside fs _ hf ((SortedSet.mem_congr hkey).mp hinsert)
        rw [firstPlace_cons_self rfl, firstPlace_cons_of_ne hne]
        omega

/-! ## The rules on the lists as they are given -/

/-- All fields that a draft names. -/
def Draft.fields (d : Draft) : List Field :=
  d.partition ++ d.ordered ++ d.extra ++ d.groupBy ++ d.aggregates.map (·.field)

/-- The draft keeps every rule for indexes but the one for joins. -/
structure Draft.KeepsFieldRules (d : Draft) : Prop where
  partition : d.partition ≠ []
  oneEntity : ∀ f ∈ d.partition, ∀ g ∈ d.partition, f.entity = g.entity
  nonempty : d.graph.names ≠ []
  covered : ∀ f ∈ d.fields, f.entity ∈ d.graph.names
  keyed : ∀ e ∈ d.graph.entities.toList, Lists (d.partition ++ d.ordered) e.id
  aggregates : ∀ a ∈ d.aggregates, Lists (d.partition ++ d.ordered ++ d.extra) a.field
  groupBy : ∀ g ∈ d.groupBy, Lists (d.partition ++ d.ordered ++ d.extra) g

/-- The draft keeps every rule for indexes. -/
structure Draft.KeepsRules (d : Draft) : Prop extends d.KeepsFieldRules where
  /-- Every two entities are joined by a chain of edges. -/
  joined : ∀ a ∈ d.graph.names, ∀ b ∈ d.graph.names, d.graph.adjacency.Reachable a b

theorem mem_stored_normalize_iff :
    f ∈ d.normalize.stored ↔ Lists (d.partition ++ d.ordered ++ d.extra) f := by
  constructor
  · intro hf
    obtain ⟨g, hg, hkey⟩ := SortedSet.mem_iff.mp hf
    exact ⟨g, mem_of_mem_stored_normalize hg, hkey⟩
  · rintro ⟨g, hg, hkey⟩
    exact (SortedSet.mem_congr hkey).mp (mem_stored_normalize hg)

theorem mem_keyFields_normalize_iff :
    f ∈ d.normalize.keyFields ↔ Lists (d.partition ++ d.ordered) f := by
  rw [keyFields, SortedSet.mem_union, SortedSet.mem_ofList, lists_append]
  show f ∈ SortedSet.ofList d.partition
    ∨ Lists (distinctOutside (SortedSet.ofList d.partition) d.ordered) f ↔ _
  by_cases hf : f ∈ SortedSet.ofList d.partition
  · exact iff_of_true (.inl hf) (.inl (SortedSet.mem_ofList.mp hf))
  · have hpartition : ¬ Lists d.partition f := fun h => hf (SortedSet.mem_ofList.mpr h)
    rw [lists_distinctOutside_iff hf, or_iff_right hf, or_iff_right hpartition]

/-- What asks for keys only holds of a set where it holds of the list that it was made from. -/
theorem forall_mem_ofList {α : Type} [Keyed α] {holds : α → Prop} {xs : List α}
    (hkey : ∀ x y, Keyed.key x = Keyed.key y → holds x → holds y) :
    (∀ x ∈ (SortedSet.ofList xs).toList, holds x) ↔ ∀ x ∈ xs, holds x := by
  constructor
  · intro h x hx
    obtain ⟨y, hy, heq⟩ := SortedSet.mem_iff.mp (SortedSet.mem_ofList.mpr ⟨x, hx, rfl⟩)
    exact hkey y x heq (h y hy)
  · intro h x hx
    exact h x (SortedSet.mem_of_mem_toList_ofList hx)

theorem onOneEntity_iff : onOneEntity fs = true ↔ ∀ f ∈ fs, ∀ g ∈ fs, f.entity = g.entity := by
  cases fs with
  | nil => simp [onOneEntity]
  | cons f fs =>
      simp only [onOneEntity, List.all_eq_true, beq_iff_eq]
      constructor
      · intro h
        have hfirst : ∀ g ∈ f :: fs, g.entity = f.entity := List.forall_mem_cons.mpr ⟨rfl, h⟩
        intro g hg g' hg'
        rw [hfirst g hg, hfirst g' hg']
      · intro h g hg
        exact h g (List.mem_cons_of_mem _ hg) f List.mem_cons_self

theorem aggregate_key_eq {a b : Aggregate} (h : Keyed.key a = Keyed.key b) :
    Keyed.key a.field = Keyed.key b.field :=
  (List.cons.inj h).2

theorem isEmpty_ofList_iff {α : Type} [Keyed α] {xs : List α} :
    (SortedSet.ofList xs).isEmpty = true ↔ xs = [] := by
  rw [SortedSet.isEmpty_iff, List.eq_nil_iff_forall_not_mem]
  constructor
  · intro h x hx
    exact h x (SortedSet.mem_ofList.mpr ⟨x, hx, rfl⟩)
  · intro h x hx
    obtain ⟨y, hy, -⟩ := SortedSet.mem_ofList.mp hx
    exact h y hy

theorem onOneEntity_ofList_iff : onOneEntity (SortedSet.ofList fs).toList = true
    ↔ ∀ f ∈ fs, ∀ g ∈ fs, f.entity = g.entity := by
  have hsecond : ∀ f : Field, (∀ g ∈ (SortedSet.ofList fs).toList, f.entity = g.entity)
      ↔ ∀ g ∈ fs, f.entity = g.entity := fun f =>
    forall_mem_ofList fun x y hkey hx => hx.trans (entity_eq_of_key_eq hkey)
  rw [onOneEntity_iff]
  simp only [hsecond]
  exact forall_mem_ofList fun x y hkey hx g hg => (entity_eq_of_key_eq hkey).symm.trans (hx g hg)

/-- The fields that the index of a draft refers to are those of the draft, as far as columns go. -/
theorem forall_mem_referenced_iff {holds : Field → Prop}
    (hkey : ∀ f g, Keyed.key f = Keyed.key g → holds f → holds g) :
    (∀ f ∈ d.normalize.referenced, holds f) ↔ ∀ f ∈ d.fields, holds f := by
  have hstored : (∀ f ∈ d.normalize.stored.toList, holds f)
      ↔ ∀ f ∈ d.partition ++ d.ordered ++ d.extra, holds f := by
    constructor
    · intro h f hf
      obtain ⟨g, hg, heq⟩ := SortedSet.mem_iff.mp (mem_stored_normalize hf)
      exact hkey g f heq (h g hg)
    · intro h f hf
      exact h f (mem_of_mem_stored_normalize hf)
  have hgroupBy : (∀ f ∈ d.normalize.groupBy.toList, holds f) ↔ ∀ f ∈ d.groupBy, holds f :=
    forall_mem_ofList hkey
  have haggregates : (∀ f ∈ d.normalize.aggregates.fields, holds f)
      ↔ ∀ f ∈ d.aggregates.map (·.field), holds f := by
    rw [AggregateSet.fields, List.forall_mem_map, List.forall_mem_map]
    exact forall_mem_ofList fun a b heq => hkey a.field b.field (aggregate_key_eq heq)
  rw [referenced, Draft.fields, List.forall_mem_append, List.forall_mem_append, hstored, hgroupBy,
    haggregates]
  simp only [List.forall_mem_append]

/-- **THE RULES ARE RULES FOR THE GIVEN LISTS**: what is left of a draft keeps them exactly where
    the draft does. -/
theorem isWellFormed_normalize_iff :
    d.normalize.IsWellFormed ↔ d.KeepsFieldRules ∧ d.graph.isConnected = true := by
  have hpartition : d.normalize.partition.isEmpty = false ↔ d.partition ≠ [] := by
    rw [← Bool.not_eq_true]
    exact isEmpty_ofList_iff.not
  have hcovered : (∀ f ∈ d.normalize.referenced, d.graph.coversField f = true)
      ↔ ∀ f ∈ d.fields, f.entity ∈ d.graph.names := by
    simp only [JoinGraph.coversField, JoinGraph.contains_iff]
    exact forall_mem_referenced_iff fun f g hkey hf => entity_eq_of_key_eq hkey ▸ hf
  have hkeyed : (∀ e ∈ d.graph.entities.toList, d.normalize.keysEntity e = true)
      ↔ ∀ e ∈ d.graph.entities.toList, Lists (d.partition ++ d.ordered) e.id := by
    simp only [keysEntity_iff, mem_keyFields_normalize_iff]
  have hstored : ∀ f, d.normalize.stored.contains f = true
      ↔ Lists (d.partition ++ d.ordered ++ d.extra) f := fun _ => mem_stored_normalize_iff
  have haggregates : (∀ a ∈ d.normalize.aggregates.toList,
        d.normalize.stored.contains a.field = true)
      ↔ ∀ a ∈ d.aggregates, Lists (d.partition ++ d.ordered ++ d.extra) a.field := by
    simp only [hstored]
    exact forall_mem_ofList fun a b hkey => (lists_congr (aggregate_key_eq hkey)).mp
  have hgroupBy : (∀ g ∈ d.normalize.groupBy.toList, d.normalize.stored.contains g = true)
      ↔ ∀ g ∈ d.groupBy, Lists (d.partition ++ d.ordered ++ d.extra) g := by
    simp only [hstored]
    exact forall_mem_ofList fun f g hkey => (lists_congr hkey).mp
  constructor
  · rintro ⟨h₁, h₂, h₃, h₄, h₅, h₆, h₇, h₈⟩
    exact ⟨⟨hpartition.mp h₁, onOneEntity_ofList_iff.mp h₂, JoinGraph.isEmpty_eq_false_iff.mp h₃,
      hcovered.mp h₅, hkeyed.mp h₆, haggregates.mp h₇, hgroupBy.mp h₈⟩, h₄⟩
  · rintro ⟨⟨h₁, h₂, h₃, h₅, h₆, h₇, h₈⟩, h₄⟩
    exact ⟨hpartition.mpr h₁, onOneEntity_ofList_iff.mpr h₂, JoinGraph.isEmpty_eq_false_iff.mpr h₃,
      h₄, hcovered.mpr h₅, hkeyed.mpr h₆, haggregates.mpr h₇, hgroupBy.mpr h₈⟩

/-- Where walks in the graph of a draft meet entities only, the count is the rule for joins. -/
theorem keepsRules_iff (hg : d.graph.KeepsWalks) :
    d.KeepsRules ↔ d.KeepsFieldRules ∧ d.graph.isConnected = true := by
  rw [JoinGraph.isConnected_iff hg]
  exact ⟨fun h => ⟨h.toKeepsFieldRules, h.joined⟩, fun h => ⟨h.1, h.2⟩⟩

/-! ## Normal forms -/

/-- The index has what the draft names once: a column belongs to the partition, or else to the
    order where it is first listed, or else to the extra fields. -/
structure IsNormalFormOf (i : Index) (d : Draft) : Prop where
  graph : i.graph = d.graph
  mem_partition : ∀ f, f ∈ i.partition ↔ Lists d.partition f
  mem_ordered : ∀ f, f ∈ i.ordered ↔ f ∉ i.partition ∧ firstOf d.ordered f = some f
  mem_extra : ∀ f, f ∈ i.extra ↔ Lists d.extra f ∧ f ∉ i.partition ∧ ¬ Lists i.ordered f
  /-- The order keeps the order in which the columns are first listed. -/
  ordered_first : i.ordered.Pairwise fun f g => firstPlace d.ordered f < firstPlace d.ordered g
  ordered_nodup : (i.ordered.map Keyed.key).Nodup
  partition_ordered : ∀ f ∈ i.partition, ¬ Lists i.ordered f
  partition_extra : ∀ f ∈ i.partition, f ∉ i.extra
  ordered_extra : ∀ f ∈ i.ordered, f ∉ i.extra
  /-- Aggregated and grouping fields are among the others, so that they add nothing. -/
  mem_allFields : ∀ f, f ∈ i.allFields ↔ f ∈ i.partition ∨ Lists i.ordered f ∨ f ∈ i.extra
  aggregated : ∀ a ∈ d.aggregates, a.field ∈ i.allFields
  grouping : ∀ g ∈ d.groupBy, g ∈ i.allFields

/-- Aggregated and grouping fields are stored, so a row carries the stored fields only. -/
theorem IsWellFormed.mem_allFields_iff (hi : i.IsWellFormed) : f ∈ i.allFields ↔ f ∈ i.stored := by
  refine ⟨fun hf => ?_, mem_allFields_of_mem_stored⟩
  rcases mem_allFields.mp hf with (hf | hf) | ⟨g, hg, hkey⟩
  · exact hf
  · obtain ⟨g, hg, hkey⟩ := SortedSet.mem_iff.mp hf
    exact (SortedSet.mem_congr hkey).mp (hi.groupBy g hg)
  · obtain ⟨a, ha, rfl⟩ := List.mem_map.mp hg
    exact (SortedSet.mem_congr hkey).mp (hi.aggregates a ha)

/-- **WHAT IS LEFT IS A NORMAL FORM**. -/
theorem isNormalFormOf_normalize (h : d.normalize.IsWellFormed) :
    d.normalize.IsNormalFormOf d := by
  have hrules := (isWellFormed_normalize_iff.mp h).1
  have hfirst := pairwise_distinctOutside d.ordered (SortedSet.ofList d.partition)
  have hextra : ∀ f, f ∈ d.normalize.extra ↔ Lists d.extra f ∧ f ∉ d.normalize.partition
      ∧ ¬ Lists d.normalize.ordered f := by
    intro f
    rw [← not_or]
    show f ∈ (SortedSet.ofList d.extra).diff
      (d.normalize.partition.union (SortedSet.ofList d.normalize.ordered)) ↔ _
    rw [SortedSet.mem_diff, SortedSet.mem_union, SortedSet.mem_ofList, SortedSet.mem_ofList]
    exact Iff.rfl
  have hnodup : (d.normalize.ordered.map Keyed.key).Nodup := by
    refine List.pairwise_map.mpr (hfirst.imp fun {f g} hlt hkey => ?_)
    rw [firstPlace, firstPlace, hkey] at hlt
    exact Nat.lt_irrefl _ hlt
  exact {
    graph := rfl
    mem_partition := fun f => SortedSet.mem_ofList
    mem_ordered := fun f => mem_distinctOutside_iff d.ordered _
    mem_extra := hextra
    ordered_first := hfirst
    ordered_nodup := hnodup
    partition_ordered := fun f hf => not_lists_distinctOutside hf
    partition_extra := fun f hf hmem => ((hextra f).mp hmem).2.1 hf
    ordered_extra := fun f hf hmem => ((hextra f).mp hmem).2.2 (lists_of_mem hf)
    mem_allFields := fun f => h.mem_allFields_iff.trans mem_stored
    aggregated := fun a ha => mem_allFields_of_mem_stored
      (mem_stored_normalize_iff.mpr (hrules.aggregates a ha))
    grouping := fun g hg => mem_allFields_of_mem_stored
      (mem_stored_normalize_iff.mpr (hrules.groupBy g hg)) }

/-! ## Numbers of rows and partitions -/

section Sizes

variable {α : Type} [Scalar α] [Scalar.CountsOrdered α]

theorem one_le_combinations (h : ∀ f ∈ fs, 1 ≤ f.cardinality) :
    Scalar.one ≤ (combinations fs : α) := by
  refine Scalar.one_le_product fun x hx => ?_
  obtain ⟨f, hf, rfl⟩ := List.mem_map.mp hx
  exact Scalar.one_le_ofCount (h f hf)

/-- The number of rows of the largest of several entities. -/
def largest (entities : List Entity) : α :=
  entities.foldl (fun rows e => Scalar.max rows (Scalar.ofCount e.count)) Scalar.one

theorem largest_bounds {entities : List Entity} {bound : Nat} (hbound : 1 ≤ bound)
    (h : ∀ e ∈ entities, 1 ≤ e.count ∧ e.count ≤ bound) :
    Scalar.one ≤ (largest entities : α) ∧ (largest entities : α) ≤ Scalar.ofCount bound := by
  have hfold : ∀ start : α, Scalar.one ≤ start ∧ start ≤ Scalar.ofCount bound →
      Scalar.one ≤ entities.foldl (fun rows e => Scalar.max rows (Scalar.ofCount e.count)) start
        ∧ entities.foldl (fun rows e => Scalar.max rows (Scalar.ofCount e.count)) start
          ≤ Scalar.ofCount bound := by
    induction entities with
    | nil => intro start hstart; exact hstart
    | cons e entities ih =>
        intro start hstart
        obtain ⟨he, hentities⟩ := List.forall_mem_cons.mp h
        obtain ⟨hone, hle⟩ := Scalar.max_spec hstart.1 (Scalar.one_le_ofCount he.1)
        exact ih hentities _
          ⟨hone, hle _ hstart.2 (Scalar.CountsOrdered.ofCount_le he.1 he.2)⟩
  exact hfold Scalar.one ⟨Scalar.one_le_one, Scalar.one_le_ofCount hbound⟩

omit [Scalar.CountsOrdered α] in
theorem entries_eq (i : Index) : (i.entries : α) =
    if i.isAggregating then
      Scalar.min (largest i.graph.entities.toList)
        (Scalar.max (combinations (i.partition.toList ++ i.groupBy.toList)) Scalar.one)
    else largest i.graph.entities.toList := rfl

theorem entries_bounds {bound : Nat} (hbound : 1 ≤ bound)
    (h : ∀ e ∈ i.graph.entities.toList, 1 ≤ e.count ∧ e.count ≤ bound)
    (hfields : ∀ f ∈ i.partition.toList ++ i.groupBy.toList, 1 ≤ f.cardinality) :
    Scalar.one ≤ (i.entries : α) ∧ (i.entries : α) ≤ Scalar.ofCount bound := by
  obtain ⟨hone, hle⟩ := largest_bounds (α := α) hbound h
  rw [entries_eq]
  split
  · obtain ⟨hgroups, -⟩ := Scalar.max_spec (one_le_combinations (α := α) hfields) Scalar.one_le_one
    obtain ⟨hmin, hrows⟩ := Scalar.min_spec hone hgroups
    exact ⟨hmin, Scalar.CountsOrdered.le_trans hmin hone (Scalar.one_le_ofCount hbound) hrows hle⟩
  · exact ⟨hone, hle⟩

theorem partitionCount_bounds (hentries : Scalar.one ≤ (i.entries : α))
    (h : ∀ f ∈ i.partition.toList, 1 ≤ f.cardinality) :
    Scalar.one ≤ (i.partitionCount : α) ∧ (i.partitionCount : α) ≤ i.entries :=
  Scalar.clamp_spec hentries (one_le_combinations h)

end Sizes

/-- Every entity of the graph has at least one row, and every field by which rows are told apart
    at least one value. -/
structure Draft.IsCounted (d : Draft) : Prop where
  rows : ∀ e ∈ d.graph.entities.toList, 1 ≤ e.count
  values : ∀ f ∈ d.partition ++ d.groupBy, 1 ≤ f.cardinality

/-- Entities that are built from declarations, and their fields, are counted. -/
theorem isCounted_of_isBuilt {m : Model} (hm : m.IsBuilt)
    (hentities : ∀ e ∈ d.graph.entities.toList, e ∈ m.entities.toList)
    (hfields : ∀ f ∈ d.partition ++ d.groupBy, ∃ e ∈ m.entities.toList, f ∈ e.fields.toList) :
    d.IsCounted := by
  constructor
  · intro e he
    obtain ⟨name, count, declarations, hbuild⟩ := hm e (hentities e he)
    exact Entity.one_le_count_of_build hbuild
  · intro f hf
    obtain ⟨e, he, hmem⟩ := hfields f hf
    obtain ⟨name, count, declarations, hbuild⟩ := hm e he
    exact (Entity.owns_of_build hbuild f hmem).2

/-- **ESTIMATES ARE IN BOUNDS**: there are at most as many partitions as rows, at most as many rows
    as the largest entity has, and at least one of either. -/
theorem sizes_normalize {α : Type} [Scalar α] [Scalar.CountsOrdered α] (hd : d.IsCounted)
    (hne : d.graph.names ≠ []) : ∃ e ∈ d.graph.entities.toList,
      (∀ e' ∈ d.graph.entities.toList, e'.count ≤ e.count)
      ∧ Scalar.one ≤ (d.normalize.partitionCount : α)
      ∧ (d.normalize.partitionCount : α) ≤ d.normalize.entries
      ∧ Scalar.one ≤ (d.normalize.entries : α)
      ∧ (d.normalize.entries : α) ≤ Scalar.ofCount e.count := by
  obtain ⟨e, hmax⟩ : ∃ e, e ∈ d.graph.entities.toList.argmax (·.count) := by
    refine Option.ne_none_iff_exists'.mp fun hnone => hne ?_
    exact List.map_eq_nil_iff.mpr (List.argmax_eq_none.mp hnone)
  have he := List.argmax_mem hmax
  have hlargest : ∀ e' ∈ d.graph.entities.toList, e'.count ≤ e.count :=
    fun e' he' => List.le_of_mem_argmax he' hmax
  -- dropping repetitions adds no field
  have hpartition : ∀ f ∈ d.normalize.partition.toList, 1 ≤ f.cardinality := fun f hf =>
    hd.values f (List.mem_append_left _ (SortedSet.mem_of_mem_toList_ofList hf))
  have hgroupBy : ∀ f ∈ d.normalize.groupBy.toList, 1 ≤ f.cardinality := fun f hf =>
    hd.values f (List.mem_append_right _ (SortedSet.mem_of_mem_toList_ofList hf))
  obtain ⟨hone, hle⟩ := entries_bounds (i := d.normalize) (α := α) (hd.rows e he)
    (fun e' he' => ⟨hd.rows e' he', hlargest e' he'⟩)
    (List.forall_mem_append.mpr ⟨hpartition, hgroupBy⟩)
  obtain ⟨hcount, hcountLe⟩ := partitionCount_bounds hone hpartition
  exact ⟨e, he, hlargest, hcount, hcountLe, hone, hle⟩

/-- **WELL-FORMED INDEXES ARE ACCEPTED**: a draft gives an index exactly where it keeps the rules
    for fields and passes the check of its joins; where no edge leads out of its graph, exactly
    where every two entities are joined.  The index is its normal form, and its estimates are in
    bounds. -/
theorem build_accepts (α : Type) [Scalar α] [Scalar.CountsOrdered α] (d : Draft) :
    ((∃ i, build d = .ok i) ↔ d.KeepsFieldRules ∧ d.graph.isConnected = true)
      ∧ (d.graph.KeepsWalks → ((∃ i, build d = .ok i) ↔ d.KeepsRules))
      ∧ ∀ i, build d = .ok i → i.IsNormalFormOf d
        ∧ (d.IsCounted → ∃ e ∈ d.graph.entities.toList,
          (∀ e' ∈ d.graph.entities.toList, e'.count ≤ e.count)
          ∧ Scalar.one ≤ (i.partitionCount : α) ∧ (i.partitionCount : α) ≤ i.entries
          ∧ Scalar.one ≤ (i.entries : α) ∧ (i.entries : α) ≤ Scalar.ofCount e.count) := by
  have haccepts : (∃ i, build d = .ok i) ↔ d.KeepsFieldRules ∧ d.graph.isConnected = true := by
    simp only [build_eq_ok_iff, exists_eq_left', isWellFormed_normalize_iff]
  refine ⟨haccepts, fun hg => haccepts.trans (keepsRules_iff hg).symm, fun i hbuild => ?_⟩
  obtain ⟨rfl, hwell⟩ := build_eq_ok_iff.mp hbuild
  have hrules := (isWellFormed_normalize_iff.mp hwell).1
  exact ⟨isNormalFormOf_normalize hwell, fun hd => sizes_normalize hd hrules.nonempty⟩

/-- The tasks of a project, counted; some columns are named twice. -/
def taskCounts : Draft where
  graph := JoinGraph.joinTo ∅ (JoinGraph.task, JoinGraph.project)
  partition := [JoinGraph.keyTo JoinGraph.task JoinGraph.project]
  ordered := [JoinGraph.project.id, JoinGraph.task.id, JoinGraph.project.id,
    JoinGraph.keyTo JoinGraph.task JoinGraph.project]
  extra := [JoinGraph.task.id, JoinGraph.keyTo JoinGraph.task JoinGraph.person]
  aggregates := [⟨.count, JoinGraph.task.id⟩]
  groupBy := [JoinGraph.project.id]

theorem build_accepts_taskCounts : taskCounts.IsCounted ∧ taskCounts.graph.KeepsWalks
    ∧ taskCounts.KeepsRules
    ∧ ∃ i, build taskCounts = .ok i ∧ i.IsNormalFormOf taskCounts
      ∧ i.ordered = [JoinGraph.project.id, JoinGraph.task.id]
      ∧ Scalar.one ≤ (i.partitionCount : Float) ∧ (i.partitionCount : Float) ≤ i.entries := by
  have hcounted : taskCounts.IsCounted := ⟨by decide +kernel, by decide +kernel⟩
  have hfault : taskCounts.normalize.fault? = none :=
    Option.isNone_iff_eq_none.mp (by decide +kernel)
  have hbuild : build taskCounts = .ok taskCounts.normalize :=
    build_eq_ok_iff.mpr ⟨rfl, fault?_eq_none_iff.mp hfault⟩
  have hwalks : taskCounts.graph.KeepsWalks := by decide +kernel
  obtain ⟨-, hiff, hall⟩ := build_accepts Float taskCounts
  obtain ⟨hnormal, hsizes⟩ := hall taskCounts.normalize hbuild
  obtain ⟨-, -, -, hone, hle, -⟩ := hsizes hcounted
  exact ⟨hcounted, hwalks, (hiff hwalks).mp ⟨_, hbuild⟩, _, hbuild, hnormal, by decide +kernel,
    hone, hle⟩

/-! ### Edges out of the graph -/

/-- Badges by number, over a graph with an edge to the people who wear them. -/
def looseBadgesDraft : Draft where
  graph := JoinGraph.looseBadges
  partition := [JoinGraph.badge.id]
  ordered := []
  extra := []
  aggregates := []
  groupBy := []

/-- Badges and projects: nothing joins them, and the badges have an edge to people. -/
def badgesOfProjectsDraft : Draft where
  graph := JoinGraph.looseBadges.union (JoinGraph.single JoinGraph.project)
  partition := [JoinGraph.project.id]
  ordered := [JoinGraph.badge.id]
  extra := []
  aggregates := []
  groupBy := []

/-- **A COUNT IS NO CHAIN**: the first draft keeps every rule and is refused, because two names are
    met and there is one entity; the second is accepted, because two names are met and there are
    two entities, though nothing joins these. -/
theorem looseBadges_miscounted :
    looseBadgesDraft.KeepsRules ∧ (∀ i, build looseBadgesDraft ≠ .ok i)
      ∧ build badgesOfProjectsDraft = .ok badgesOfProjectsDraft.normalize
      ∧ ¬ badgesOfProjectsDraft.graph.adjacency.Reachable "badge" "project" := by
  have hrules : looseBadgesDraft.KeepsFieldRules := {
    partition := List.cons_ne_nil _ _
    oneEntity := by decide +kernel
    nonempty := by decide +kernel
    covered := by decide +kernel
    keyed := fun e he => by
      obtain rfl : e = JoinGraph.badge := List.mem_singleton.mp he
      exact ⟨JoinGraph.badge.id, List.mem_cons_self, rfl⟩
    aggregates := fun _ ha => nomatch ha
    groupBy := fun _ hf => nomatch hf }
  have hone : ∀ v ∈ looseBadgesDraft.graph.names, v = "badge" := by decide +kernel
  have hfails : looseBadgesDraft.graph.isConnected = false := by decide +kernel
  have hpasses : badgesOfProjectsDraft.normalize.fault?.isNone = true := by decide +kernel
  refine ⟨⟨hrules, fun a ha b hb => ?_⟩, fun i hi => ?_, ?_, fun hreach => ?_⟩
  · rw [hone a ha, hone b hb]
  · obtain ⟨rfl, hwell⟩ := build_eq_ok_iff.mp hi
    exact absurd hwell.connected (Bool.eq_false_iff.mp hfails)
  · exact build_eq_ok_iff.mpr ⟨rfl, fault?_eq_none_iff.mp (Option.isNone_iff_eq_none.mp hpasses)⟩
  -- walks from the badges meet badges and people
  · have hmet : ∀ x, x = "badge" ∨ x = "person" →
        ∀ y ∈ badgesOfProjectsDraft.graph.neighbors x, y = "badge" ∨ y = "person" := by
      rintro x (rfl | rfl)
      · decide +kernel
      · decide +kernel
    exact absurd (JoinGraph.of_reachable hmet (.inl rfl) hreach) (by decide)

end IndexDesign.Index
