import IndexDesign.Proofs.Pointwise
import IndexDesign.Statement.Query

/-! # What accepted queries are made of

    A query is built from a draft by finding the graph of its path and then,
    list by list, the fields that the draft names.  Where all of them are found
    and no rule is broken, each part of the query is what was found for the
    part of the draft. -/

namespace IndexDesign.Query

variable {α : Type} {m : Model} {g : JoinGraph} {d : Draft α} {q : Query α}

/-- The query has what the names of the draft stand for, and it breaks no rule. -/
structure IsMadeOf [Scalar α] [Rendered α] (m : Model) (d : Draft α) (q : Query α) : Prop where
  graph : JoinGraph.ofPath m d.path = .ok q.graph
  select : ∃ fields, fieldsOn m q.graph d.select = .ok fields ∧ q.select = SortedSet.ofList fields
  eq : ∃ fields, fieldsOn m q.graph d.eq = .ok fields ∧ q.eq = SortedSet.ofList fields
  range : ∃ fields, fieldsOn m q.graph d.range = .ok fields ∧ q.range = SortedSet.ofList fields
  orderBy : fieldsOn m q.graph d.orderBy = .ok q.orderBy
  groupBy : ∃ fields,
    fieldsOn m q.graph d.groupBy = .ok fields ∧ q.groupBy = SortedSet.ofList fields
  aggregates : ∃ found,
    aggregatesOn m q.graph d.aggregates = .ok found ∧ q.aggregates = SortedSet.extend ∅ found
  limit : q.limit = d.limit
  weight : q.weight = d.weight
  rules : q.fault? = none

/-- A query that is accepted is made of what its draft names. -/
theorem isMadeOf_of_build [Scalar α] [Rendered α] (h : build m d = .ok q) : q.IsMadeOf m d := by
  simp only [build] at h
  obtain ⟨graph, hgraph, h⟩ := exists_of_bind_eq_ok h
  obtain ⟨select, hselect, h⟩ := exists_of_bind_eq_ok h
  obtain ⟨eq, heq, h⟩ := exists_of_bind_eq_ok h
  obtain ⟨range, hrange, h⟩ := exists_of_bind_eq_ok h
  obtain ⟨orderBy, horderBy, h⟩ := exists_of_bind_eq_ok h
  obtain ⟨groupBy, hgroupBy, h⟩ := exists_of_bind_eq_ok h
  obtain ⟨aggregates, haggregates, h⟩ := exists_of_bind_eq_ok h
  split at h
  · exact nomatch h
  · next hrules =>
    rw [← Except.ok.inj h]
    exact ⟨hgraph, ⟨_, hselect, rfl⟩, ⟨_, heq, rfl⟩, ⟨_, hrange, rfl⟩, horderBy,
      ⟨_, hgroupBy, rfl⟩, ⟨_, haggregates, rfl⟩, rfl, rfl, hrules⟩

/-- What a name stands for is a field of the model that lies on the graph. -/
theorem of_fieldOn {name : String} {f : Field} (h : fieldOn m g name = .ok f) :
    m.field name = .ok f ∧ g.coversField f = true := by
  simp only [fieldOn] at h
  obtain ⟨field, hfield, h⟩ := exists_of_bind_eq_ok h
  split at h
  · next hcovers =>
    rw [← Except.ok.inj h]
    exact ⟨hfield, hcovers⟩
  · exact nomatch h

theorem of_fieldsOn {names : List String} {fields : List Field}
    (h : fieldsOn m g names = .ok fields) {f : Field} (hf : f ∈ fields) :
    ∃ name ∈ names, m.field name = .ok f ∧ g.coversField f = true := by
  obtain ⟨name, hname, hfound⟩ := exists_of_forall₂_right ((mapM_eq_ok_iff names fields).mp h) hf
  exact ⟨name, hname, of_fieldOn hfound⟩

end IndexDesign.Query
