import IndexDesign.Proofs.Graph.Leaves
import IndexDesign.Proofs.Plan.AggregatingView
import IndexDesign.Proofs.Statement.View
import IndexDesign.Statement.Workload

/-! # Which queries have a view

    A view starts at the first entity of the join order.  A query that is
    accepted has a join order unless its graph has several entities and no
    leaf, and then it has no view: its path closes a cycle.  A path that meets
    no entity twice makes a tree, and a tree has a leaf.

    Where there is a view it is that of the query: on the same graph, with the
    fields that the query mentions and the identifiers of its entities, and
    with the aggregates and the grouping of the query. -/

namespace IndexDesign

variable {α : Type}

namespace Query

variable {m : Model} {d : Draft α} {q : Query α} {head : Entity} {f : Field}

/-- The query selects the field, tests it, groups or sorts by it, or aggregates it. -/
def Mentions (q : Query α) (f : Field) : Prop :=
  f ∈ q.select ∨ f ∈ q.eq ∨ f ∈ q.range ∨ f ∈ q.groupBy ∨ (∃ g ∈ q.orderBy, key g = key f)
    ∨ ∃ g ∈ q.aggregates.fields, key g = key f

/-- The index is the view of the query. -/
structure IsViewedBy (q : Query α) (view : Index) : Prop where
  graph : view.graph = q.graph
  /-- It has the fields that the query mentions and the identifiers of the query's entities. -/
  fields : ∀ f, f ∈ view.allFields
    ↔ q.Mentions f ∨ ∃ e ∈ q.graph.entities.toList, key e.id = key f
  aggregates : view.aggregates = q.aggregates
  groupBy : view.groupBy = q.groupBy
  /-- Its partition lies on the first entity of the join order. -/
  partition : ∃ first, q.joinOrder.head? = some first
    ∧ ∀ f ∈ view.partition.toList, f.entity = first

/-! ## The fields of a view -/

theorem mem_required_iff : f ∈ q.required
    ↔ (f ∈ q.select ∨ ∃ g ∈ q.aggregates.fields, key g = key f) ∨ f ∈ q.groupBy := by
  rw [required, SortedSet.mem_union, SortedSet.mem_extend]

theorem mentions_iff_named : q.Mentions f ↔ ∃ g ∈ q.named, key g = key f := by
  simp only [Mentions, named, List.mem_append, or_and_right, exists_or, ← SortedSet.mem_iff,
    mem_required_iff]
  -- the same conditions in another order
  simp only [or_assoc, or_comm, or_left_comm, or_self_left]

theorem key_mem_allFields_view (hf : f ∈ (q.viewDraft head).normalize.allFields) :
    ∃ g, (g ∈ q.viewPartition head ∨ g ∈ q.named ∨ g ∈ q.identifiers) ∧ key g = key f := by
  rcases Index.mem_allFields.mp hf with (hstored | hgroup) | ⟨g, hg, hkey⟩
  · obtain ⟨g, hg, hkey⟩ := SortedSet.mem_iff.mp hstored
    exact ⟨g, mem_viewDraft_iff.mp (Index.mem_of_mem_stored_normalize hg), hkey⟩
  · obtain ⟨g, hg, hkey⟩ := SortedSet.mem_iff.mp hgroup
    exact ⟨g, .inr (.inl (mem_named_of_mem_groupBy (SortedSet.mem_of_mem_toList_ofList hg))), hkey⟩
  · obtain ⟨a, ha, rfl⟩ := List.mem_map.mp hg
    obtain ⟨h, hh, hsame⟩ := SortedSet.mem_iff.mp
      (field_mem_required (SortedSet.mem_of_mem_toList_ofList ha))
    exact ⟨h, .inr (.inl (mem_named_of_mem_required hh)), hsame.trans hkey⟩

/-- The fields of a view are those that the query mentions and the identifiers of its entities. -/
theorem mem_allFields_view_iff (hg : q.graph.IsJoined) (hne : q.joinOrder ≠ [])
    (hhead : head ∈ q.graph.entities.toList) : f ∈ (q.viewDraft head).normalize.allFields
      ↔ q.Mentions f ∨ ∃ e ∈ q.graph.entities.toList, key e.id = key f := by
  rw [mentions_iff_named]
  constructor
  · intro hf
    obtain ⟨g, hpartition | hnamed | hid, hkey⟩ := key_mem_allFields_view hf
    · rcases (of_mem_viewPartition hpartition).1 with rfl | heq
      · exact .inr ⟨head, hhead, hkey⟩
      · exact .inl ⟨g, mem_named_of_mem_eq heq, hkey⟩
    · exact .inl ⟨g, hnamed, hkey⟩
    · obtain ⟨e, he, -, rfl⟩ := mem_identifiers_iff.mp hid
      exact .inr ⟨e, he, hkey⟩
  · rintro (⟨g, hnamed, hkey⟩ | ⟨e, he, hkey⟩)
    · exact (SortedSet.mem_congr hkey).mp
        (Index.mem_allFields_of_mem_stored (mem_stored_view (.inl hnamed)))
    -- the join order has every entity
    · have hname : e.name ∈ q.joinOrder :=
        (JoinGraph.mem_joinOrder_iff hg hne).mpr (List.mem_map_of_mem he)
      exact (SortedSet.mem_congr hkey).mp (Index.mem_allFields_of_mem_stored
        (mem_stored_view (.inr (mem_identifiers_iff.mpr ⟨e, he, hname, rfl⟩))))

theorem isViewedBy_viewDraft (hm : m.IsBuilt) (hq : q.IsAccepted m) (hne : q.joinOrder ≠ [])
    (hhead : head ∈ q.graph.entities.toList) (hfirst : q.joinOrder.head? = some head.name) :
    q.IsViewedBy (q.viewDraft head).normalize := by
  obtain ⟨last, hgraph⟩ := hq.graph
  refine ⟨rfl, fun f => mem_allFields_view_iff hgraph.isJoined hne hhead,
    SortedSet.ofList_toList _, SortedSet.ofList_toList _, head.name, hfirst, fun f hf => ?_⟩
  exact (of_mem_viewPartition (SortedSet.mem_of_mem_toList_ofList hf)).2
    (id_entity_of_mem hm hq hhead)

/-! ## Where there is no view -/

theorem names_ne_nil_of_isAccepted (hq : q.IsAccepted m) : q.graph.names ≠ [] := by
  obtain ⟨last, hgraph⟩ := hq.graph
  exact List.ne_nil_of_mem hgraph.mem

theorem view_of_joinOrder_nil (h : q.joinOrder = []) : q.view = .error (.noJoinOrder q.text) := by
  rw [view, head?, h]
  rfl

theorem view_of_hasStart (hm : m.IsBuilt) (hq : q.IsAccepted m) (hstart : q.graph.HasStart) :
    ∃ view, q.view = .ok view ∧ q.IsViewedBy view := by
  have hne : q.joinOrder ≠ [] :=
    (JoinGraph.joinOrder_ne_nil_iff (names_ne_nil_of_isAccepted hq)).mpr hstart
  obtain ⟨head, hhead, hfirst, hview⟩ := exists_view hm hq hne
  exact ⟨_, hview, isViewedBy_viewDraft hm hq hne hhead hfirst⟩

theorem view_of_not_hasStart (hq : q.IsAccepted m) (hstart : ¬ q.graph.HasStart) :
    q.view = .error (.noJoinOrder q.text) := by
  refine view_of_joinOrder_nil (by_contra fun hne => hstart ?_)
  exact (JoinGraph.joinOrder_ne_nil_iff (names_ne_nil_of_isAccepted hq)).mp hne

theorem exists_view_iff (hm : m.IsBuilt) (hq : q.IsAccepted m) :
    (∃ view, q.view = .ok view) ↔ q.graph.HasStart := by
  constructor
  · rintro ⟨view, hview⟩
    by_contra hstart
    rw [view_of_not_hasStart hq hstart] at hview
    exact nomatch hview
  · intro hstart
    obtain ⟨view, hview, -⟩ := view_of_hasStart hm hq hstart
    exact ⟨view, hview⟩

end Query

/-! ## Workloads -/

namespace Workload

variable {m : Model} {w : Workload α}

/-- The queries of the workload were accepted over the model; their weights and handles are their
    own. -/
def IsOfAccepted [Scalar α] [Rendered α] (w : Workload α) (m : Model) : Prop :=
  ∀ q ∈ w.queries, ∃ (d : Query.Draft α) (accepted : Query α), Query.build m d = .ok accepted
    ∧ q = { accepted with weight := q.weight, handle := q.handle }

theorem isAccepted_of_mem_queries [Scalar α] [Rendered α] (hw : w.IsOfAccepted m) {q : Query α}
    (hq : q ∈ w.queries) : q.IsAccepted m := by
  obtain ⟨d, accepted, hbuild, hsame⟩ := hw q hq
  obtain ⟨hgraph, hcovered⟩ := Query.isAccepted_of_build hbuild
  rw [hsame]
  exact ⟨hgraph, hcovered⟩

/-- The views of a workload are made where each of its queries has one. -/
theorem exists_views_iff :
    (∃ views, w.views = .ok views) ↔ ∀ q ∈ w.queries, ∃ view, q.view = .ok view := by
  constructor
  · rintro ⟨views, h⟩ q hq
    obtain ⟨each, heach, -⟩ := exists_of_bind_eq_ok h
    obtain ⟨view, -, hview⟩ := exists_of_forall₂_left ((mapM_eq_ok_iff _ each).mp heach) hq
    exact ⟨view, hview⟩
  · intro h
    obtain ⟨each, heach⟩ := exists_forall₂ w.queries h
    refine ⟨Index.pool each, ?_⟩
    rw [views, (mapM_eq_ok_iff w.queries each).mpr heach]
    rfl

end Workload

namespace Query

/-- **QUERIES WITH A START HAVE A VIEW**: over a model of built entities, a query that is accepted
    has a view exactly where its graph has an entity to start at, as that of a path of distinct
    entities has.  The view is that of the query.  The views of a workload of such queries are
    made where each of them has a start. -/
theorem view_of_build [Scalar α] [Rendered α] {m : Model} (hm : m.IsBuilt) :
    (∀ (d : Draft α) (q : Query α), build m d = .ok q →
        (q.graph.HasStart → ∃ view, q.view = .ok view ∧ q.IsViewedBy view)
          ∧ (¬ q.graph.HasStart → q.view = .error (.noJoinOrder q.text))
          ∧ (d.path.Nodup → q.graph.HasStart))
      ∧ ∀ w : Workload α, w.IsOfAccepted m →
          ((∃ views, w.views = .ok views) ↔ ∀ q ∈ w.queries, q.graph.HasStart) := by
  constructor
  · intro d q hbuild
    have hq : q.IsAccepted m := isAccepted_of_build hbuild
    have hpath := (isMadeOf_of_build hbuild).graph
    exact ⟨view_of_hasStart hm hq, view_of_not_hasStart hq, fun hnodup =>
      JoinGraph.hasStart_of_isTree (JoinGraph.isTree_ofPath hnodup hpath)⟩
  · intro w hw
    rw [Workload.exists_views_iff]
    exact forall₂_congr fun q hq => exists_view_iff hm (Workload.isAccepted_of_mem_queries hw hq)

/-- The users of a city have a view, and so has the workload that asks for them. -/
theorem view_of_build_names : Planner.userModel.IsBuilt
    ∧ build Planner.userModel Planner.namesDraft = .ok Planner.namesQuery
    ∧ Planner.namesQuery.graph.HasStart
    ∧ (∃ view, Planner.namesQuery.view = .ok view ∧ Planner.namesQuery.IsViewedBy view)
    ∧ ∃ views, ((Workload.ofModel Planner.userModel).add (.read Planner.namesQuery)).views
        = .ok views := by
  have hm := Planner.isBuilt_userModel
  have hbuild : build Planner.userModel Planner.namesDraft = .ok Planner.namesQuery := rfl
  have hstart : Planner.namesQuery.graph.HasStart := .inl (Nat.le_refl 1)
  have hw : ((Workload.ofModel Planner.userModel).add (.read Planner.namesQuery)).IsOfAccepted
      Planner.userModel := by
    intro q hq
    rw [List.mem_singleton.mp hq]
    exact ⟨_, _, hbuild, rfl⟩
  refine ⟨hm, hbuild, hstart, ((view_of_build hm).1 _ _ hbuild).1 hstart,
    ((view_of_build hm).2 _ hw).mpr fun q hq => ?_⟩
  rw [List.mem_singleton.mp hq]
  exact hstart

/-! ## A path that closes a cycle

    Employees belong to a department, a department lies on a site, and a site is
    headed by an employee.  Each of the three has two neighbours. -/

def employeeId : Field := (Field.ofType "employee" "id" .id).withCardinality 200

def employeeDepartment : Field :=
  (Field.ofType "employee" "department" (.foreignKey "department")).withCardinality 10

def departmentId : Field := (Field.ofType "department" "id" .id).withCardinality 10

def departmentSite : Field :=
  (Field.ofType "department" "site" (.foreignKey "site")).withCardinality 3

def siteId : Field := (Field.ofType "site" "id" .id).withCardinality 3

def siteHead : Field :=
  (Field.ofType "site" "head" (.foreignKey "employee")).withCardinality 200

def employeeEntity : Entity :=
  ⟨"employee", 200, employeeId, SortedSet.ofList [employeeId, employeeDepartment]⟩

def departmentEntity : Entity :=
  ⟨"department", 10, departmentId, SortedSet.ofList [departmentId, departmentSite]⟩

def siteEntity : Entity := ⟨"site", 3, siteId, SortedSet.ofList [siteId, siteHead]⟩

def firmModel : Model := ((Model.empty.add employeeEntity).add departmentEntity).add siteEntity

/-- The departments on whose site an employee of theirs is the head. -/
def headsDraft : Draft Rat where
  path := ["employee", "department", "site", "employee"]
  select := ["department.id"]
  eq := ["employee.id"]
  range := []
  orderBy := []
  groupBy := []
  aggregates := []
  limit := none
  weight := 1
  text := some "heads"

def headsQuery : Query Rat where
  text := "heads"
  select := SortedSet.ofList [departmentId]
  eq := SortedSet.ofList [employeeId]
  range := ∅
  orderBy := []
  groupBy := ∅
  aggregates := ∅
  limit := none
  graph := (((JoinGraph.single employeeEntity).withEdge employeeEntity departmentEntity
    employeeDepartment).withEdge departmentEntity siteEntity departmentSite).withEdge
      siteEntity employeeEntity siteHead
  weight := 1
  handle := 0

theorem isBuilt_firmModel : firmModel.IsBuilt := by
  intro e he
  rcases List.mem_cons.mp he with rfl | he
  · exact ⟨"department", 10, [.identifier "id" [],
      .field "site" (.foreignKey "site") (some 3)], rfl⟩
  · rcases List.mem_cons.mp he with rfl | he
    · exact ⟨"employee", 200, [.identifier "id" [],
        .field "department" (.foreignKey "department") (some 10)], rfl⟩
    · rw [List.mem_singleton.mp he]
      exact ⟨"site", 3, [.identifier "id" [],
        .field "head" (.foreignKey "employee") (some 200)], rfl⟩

/-- The query is accepted, and neither it nor a workload with it has a view. -/
theorem headsQuery_has_no_view :
    firmModel.IsBuilt ∧ build firmModel headsDraft = .ok headsQuery
      ∧ headsQuery.graph.isConnected = true
      ∧ headsQuery.view = .error (.noJoinOrder "heads")
      ∧ ((Workload.ofModel firmModel).add (.read headsQuery)).views
          = .error (.noJoinOrder "heads") := by
  have hjoins : headsQuery.joinOrder = [] := by decide +kernel
  have hview : headsQuery.view = .error (.noJoinOrder "heads") := view_of_joinOrder_nil hjoins
  refine ⟨isBuilt_firmModel, rfl, by decide +kernel, hview, ?_⟩
  show (List.mapM view [headsQuery] >>= fun each => Except.ok (Index.pool each)) = _
  rw [List.mapM_cons, hview]
  rfl

end Query

end IndexDesign
