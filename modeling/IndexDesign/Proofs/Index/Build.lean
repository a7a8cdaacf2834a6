import IndexDesign.Index.Build
import IndexDesign.Proofs.SortedSet

/-! # What building an index gives

    An index is built from a draft exactly where what is left of the draft
    without repetitions keeps every rule.  Nothing is lost on the way: a field
    that the draft names is stored, and a field that is stored was named. -/

namespace IndexDesign.Index

/-! ## Dropping repetitions -/

variable {taken : FieldSet} {f : Field} {fs gs : List Field}

theorem distinctOutside_cons_of_mem (h : f ∈ taken) :
    distinctOutside taken (f :: fs) = distinctOutside taken fs := if_pos h

theorem distinctOutside_cons_of_not_mem (h : f ∉ taken) :
    distinctOutside taken (f :: fs) = f :: distinctOutside (taken.insert f) fs := if_neg h

/-- What is left was there. -/
theorem mem_of_mem_distinctOutside (fs : List Field) : ∀ taken,
    f ∈ distinctOutside taken fs → f ∈ fs := by
  induction fs with
  | nil => intro taken h; exact h
  | cons g fs ih =>
      intro taken h
      by_cases hg : g ∈ taken
      · rw [distinctOutside_cons_of_mem hg] at h
        exact List.mem_cons_of_mem _ (ih _ h)
      · rw [distinctOutside_cons_of_not_mem hg] at h
        rcases List.mem_cons.mp h with rfl | h
        · exact List.mem_cons_self
        · exact List.mem_cons_of_mem _ (ih _ h)

/-- What was there is taken or left under its key. -/
theorem exists_mem_distinctOutside (fs : List Field) : ∀ taken : FieldSet, f ∈ fs →
    f ∈ taken ∨ ∃ g ∈ distinctOutside taken fs, Keyed.key g = Keyed.key f := by
  induction fs with
  | nil => intro taken h; exact nomatch h
  | cons g fs ih =>
      intro taken h
      by_cases hg : g ∈ taken
      · rw [distinctOutside_cons_of_mem hg]
        rcases List.mem_cons.mp h with rfl | h
        · exact .inl hg
        · exact ih taken h
      · rw [distinctOutside_cons_of_not_mem hg]
        rcases List.mem_cons.mp h with rfl | h
        · exact .inr ⟨f, List.mem_cons_self, rfl⟩
        · rcases ih (taken.insert g) h with hf | ⟨x, hx, hkey⟩
          · rcases SortedSet.mem_insert.mp hf with hkey | hf
            · exact .inr ⟨g, List.mem_cons_self, hkey⟩
            · exact .inl hf
          · exact .inr ⟨x, List.mem_cons_of_mem _ hx, hkey⟩

/-- What is left was not taken. -/
theorem not_mem_of_mem_distinctOutside (fs : List Field) : ∀ taken,
    f ∈ distinctOutside taken fs → f ∉ taken := by
  induction fs with
  | nil => intro taken h; exact nomatch h
  | cons g fs ih =>
      intro taken h
      by_cases hg : g ∈ taken
      · rw [distinctOutside_cons_of_mem hg] at h
        exact ih _ h
      · rw [distinctOutside_cons_of_not_mem hg] at h
        rcases List.mem_cons.mp h with rfl | h
        · exact hg
        · intro hf
          exact ih _ h (SortedSet.mem_insert.mpr (.inr hf))

/-- What is left depends on the members of what is taken only. -/
theorem distinctOutside_congr (fs : List Field) : ∀ taken taken' : FieldSet,
    (∀ f, f ∈ taken ↔ f ∈ taken') → distinctOutside taken fs = distinctOutside taken' fs := by
  induction fs with
  | nil => intro taken taken' _; rfl
  | cons g fs ih =>
      intro taken taken' h
      by_cases hg : g ∈ taken
      · rw [distinctOutside_cons_of_mem hg, distinctOutside_cons_of_mem ((h g).mp hg)]
        exact ih _ _ h
      · rw [distinctOutside_cons_of_not_mem hg,
          distinctOutside_cons_of_not_mem fun hmem => hg ((h g).mpr hmem)]
        refine congrArg (g :: ·) (ih _ _ fun f => ?_)
        rw [SortedSet.mem_insert, SortedSet.mem_insert, h f]

/-- What comes first is treated as if it came alone, and is taken for what comes next. -/
theorem distinctOutside_append (fs gs : List Field) : ∀ taken,
    distinctOutside taken (fs ++ gs)
      = distinctOutside taken fs ++ distinctOutside (taken.extend fs) gs := by
  induction fs with
  | nil => intro taken; rfl
  | cons f fs ih =>
      intro taken
      rw [List.cons_append, SortedSet.extend, List.foldl_cons, ← SortedSet.extend]
      by_cases hf : f ∈ taken
      · rw [distinctOutside_cons_of_mem hf, distinctOutside_cons_of_mem hf, ih]
        congr 1
        -- taking a field again takes nothing more
        refine distinctOutside_congr gs _ _ fun g => ?_
        rw [SortedSet.mem_extend, SortedSet.mem_extend, SortedSet.mem_insert]
        constructor
        · rintro (hg | hg)
          · exact .inl (.inr hg)
          · exact .inr hg
        · rintro ((hkey | hg) | hg)
          · exact .inl ((SortedSet.mem_congr hkey).mp hf)
          · exact .inl hg
          · exact .inr hg
      · rw [distinctOutside_cons_of_not_mem hf, distinctOutside_cons_of_not_mem hf, ih,
          List.cons_append]

/-! ## Fields of drafts -/

variable {d : Draft} {i : Index}

theorem mem_stored : f ∈ i.stored ↔
    f ∈ i.partition ∨ (∃ g ∈ i.ordered, Keyed.key g = Keyed.key f) ∨ f ∈ i.extra := by
  rw [stored, SortedSet.mem_ofList]
  simp only [List.mem_append, or_and_right, exists_or, SortedSet.mem_iff, or_assoc]

theorem mem_allFields_of_mem_stored (h : f ∈ i.stored) : f ∈ i.allFields :=
  SortedSet.mem_extend.mpr (.inl (SortedSet.mem_union.mpr (.inl h)))

/-- The fields that make up the key of a row. -/
def keyFields (i : Index) : FieldSet := i.partition.union (SortedSet.ofList i.ordered)

theorem mem_allFields_of_mem_keyFields (h : f ∈ i.keyFields) : f ∈ i.allFields := by
  refine mem_allFields_of_mem_stored (mem_stored.mpr ?_)
  rcases SortedSet.mem_union.mp h with h | h
  · exact .inl h
  · exact .inr (.inl (SortedSet.mem_ofList.mp h))

theorem keysEntity_iff {e : Entity} : i.keysEntity e = true ↔ e.id ∈ i.keyFields := by
  have hsame : ∀ g : Field, g.same e.id = true ↔ Keyed.key g = Keyed.key e.id := by
    intro g
    show _ ↔ [g.entity, g.name] = [e.id.entity, e.id.name]
    rw [Field.same, Bool.and_eq_true, beq_iff_eq, beq_iff_eq, List.cons.injEq, List.cons.injEq]
    simp
  rw [keysEntity, Bool.or_eq_true, List.any_eq_true, keyFields, SortedSet.mem_union,
    SortedSet.mem_ofList]
  simp only [hsame]
  exact Iff.rfl

/-- A field that a draft names is stored by its index. -/
theorem mem_stored_normalize (h : f ∈ d.partition ++ d.ordered ++ d.extra) :
    f ∈ d.normalize.stored := by
  have hordered : f ∈ d.ordered → f ∈ d.normalize.stored := by
    intro hf
    rcases exists_mem_distinctOutside d.ordered (SortedSet.ofList d.partition) hf with hf | hf
    · exact mem_stored.mpr (.inl hf)
    · exact mem_stored.mpr (.inr (.inl hf))
  rcases List.mem_append.mp h with h | h
  · rcases List.mem_append.mp h with h | h
    · exact mem_stored.mpr (.inl (SortedSet.mem_ofList.mpr ⟨f, h, rfl⟩))
    · exact hordered h
  -- an extra field is left out only where it is stored before
  · by_cases hbefore : f ∈ (SortedSet.ofList d.partition).union
        (SortedSet.ofList d.normalize.ordered)
    · rcases SortedSet.mem_union.mp hbefore with hf | hf
      · exact mem_stored.mpr (.inl hf)
      · exact mem_stored.mpr (.inr (.inl (SortedSet.mem_ofList.mp hf)))
    · refine mem_stored.mpr (.inr (.inr (SortedSet.mem_diff.mpr ⟨?_, hbefore⟩)))
      exact SortedSet.mem_ofList.mpr ⟨f, h, rfl⟩

/-- A field that is stored was named. -/
theorem mem_of_mem_stored_normalize (h : f ∈ d.normalize.stored.toList) :
    f ∈ d.partition ++ d.ordered ++ d.extra := by
  rcases List.mem_append.mp (SortedSet.mem_of_mem_toList_ofList h) with h | h
  · rcases List.mem_append.mp h with h | h
    · exact List.mem_append_left _ (List.mem_append_left _ (SortedSet.mem_of_mem_toList_ofList h))
    · exact List.mem_append_left _ (List.mem_append_right _ (mem_of_mem_distinctOutside _ _ h))
  · exact List.mem_append_right _ (SortedSet.mem_of_mem_toList_ofList (List.mem_filter.mp h).1)

/-! ## Rules -/

/-- The index keeps every rule for indexes. -/
structure IsWellFormed (i : Index) : Prop where
  partition : i.partition.isEmpty = false
  oneEntity : onOneEntity i.partition.toList = true
  nonempty : i.graph.isEmpty = false
  connected : i.graph.isConnected = true
  covered : ∀ f ∈ i.referenced, i.graph.coversField f = true
  keyed : ∀ e ∈ i.graph.entities.toList, i.keysEntity e = true
  aggregates : ∀ a ∈ i.aggregates.toList, i.stored.contains a.field = true
  groupBy : ∀ f ∈ i.groupBy.toList, i.stored.contains f = true

theorem fault?_eq_none_iff : i.fault? = none ↔ i.IsWellFormed := by
  simp only [fault?]
  constructor
  · intro h
    split at h
    · exact nomatch h
    · next hpartition =>
      split at h
      · exact nomatch h
      · next hone =>
        split at h
        · exact nomatch h
        · next hgraph =>
          split at h
          · exact nomatch h
          · next hcovered =>
            split at h
            · exact nomatch h
            · next hkeyed =>
              split at h
              · exact nomatch h
              · next haggregates =>
                rw [Option.map_eq_none_iff] at h
                rw [Bool.or_eq_true, not_or, Bool.not_eq_true, Bool.not_eq_true',
                  Bool.not_eq_false] at hgraph
                refine ⟨Bool.eq_false_iff.mpr hpartition, by simpa using hone, hgraph.1, hgraph.2,
                  ?_, ?_, ?_, ?_⟩
                · simpa using hcovered
                · simpa using hkeyed
                · simpa using haggregates
                · simpa using h
  · rintro ⟨hpartition, hone, hnonempty, hconnected, hcovered, hkeyed, haggregates, hgroupBy⟩
    have hnone : ∀ {β : Type} {p : β → Bool} {xs : List β}, (∀ x ∈ xs, p x = true) →
        xs.find? (! p ·) = none := by
      intro β p xs hall
      refine List.find?_eq_none.mpr fun x hx => ?_
      rw [hall x hx]
      exact Bool.false_ne_true
    rw [hpartition, hone, hnonempty, hconnected, hnone hcovered, hnone hkeyed, hnone haggregates,
      hnone hgroupBy]
    rfl

/-- **INDEXES ARE BUILT WHERE THEY ARE WELL FORMED**. -/
theorem build_eq_ok_iff : build d = .ok i ↔ d.normalize = i ∧ i.IsWellFormed := by
  simp only [build]
  constructor
  · intro h
    split at h
    · exact nomatch h
    · next hfault =>
      rw [← Except.ok.inj h]
      exact ⟨rfl, fault?_eq_none_iff.mp hfault⟩
  · rintro ⟨rfl, hwell⟩
    rw [fault?_eq_none_iff.mpr hwell]

/-! ## Fields of well-formed indexes -/

theorem mem_allFields : f ∈ i.allFields ↔
    (f ∈ i.stored ∨ f ∈ i.groupBy) ∨ ∃ g ∈ i.aggregates.fields, Keyed.key g = Keyed.key f := by
  rw [allFields, SortedSet.mem_extend, SortedSet.mem_union]

/-- The fields of a row belong to the joined entities. -/
theorem IsWellFormed.mem_names_of_mem_allFields (hi : i.IsWellFormed) (hf : f ∈ i.allFields) :
    f.entity ∈ i.graph.names := by
  have hreferenced : ∃ g ∈ i.referenced, Keyed.key g = Keyed.key f := by
    simp only [referenced, List.mem_append]
    rcases mem_allFields.mp hf with (hf | hf) | ⟨g, hg, hkey⟩
    · obtain ⟨g, hg, hkey⟩ := SortedSet.mem_iff.mp hf
      exact ⟨g, .inl (.inl hg), hkey⟩
    · obtain ⟨g, hg, hkey⟩ := SortedSet.mem_iff.mp hf
      exact ⟨g, .inl (.inr hg), hkey⟩
    · exact ⟨g, .inr hg, hkey⟩
  obtain ⟨g, hg, hkey⟩ := hreferenced
  rw [← (List.cons.inj hkey).1]
  exact List.contains_iff_mem.mp (hi.covered g hg)

/-- The identifiers of the joined entities are stored. -/
theorem IsWellFormed.mem_allFields_id (hi : i.IsWellFormed) {e : Entity}
    (he : e ∈ i.graph.entities.toList) : e.id ∈ i.allFields :=
  mem_allFields_of_mem_keyFields (keysEntity_iff.mp (hi.keyed e he))

end IndexDesign.Index
