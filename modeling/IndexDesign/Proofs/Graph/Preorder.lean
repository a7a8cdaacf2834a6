import IndexDesign.Proofs.Graph.Leaves

/-! # Join orders are depth-first preorders

    A walk keeps the entities to visit next on a stack, and an entity may be on
    it several times before it is visited and after.  The search that it stands
    for is the recursive one: the entities of a list are visited one after the
    other, each new one together with all that is found from its neighbours.

    The two agree because what is on the stack is visited from the top: the
    neighbours that a visit puts there are done with before what was below
    them.  A copy that is left over from an earlier visit is passed by. -/

namespace IndexDesign.JoinGraph

variable {g : JoinGraph} {eq : FieldSet} {v : String} {vs ws order found : List String}

/-! ## The recursive search -/

/-- Depth-first search by recursion: where the entities of `order` have been visited, visiting
    those of a list one after the other ends with those of `found`, in this order. -/
inductive Visits (g : JoinGraph) : (order vs found : List String) → Prop
  | done (order : List String) : g.Visits order [] order
  | old {order vs found : List String} {v : String} (hv : v ∈ order)
      (hrest : g.Visits order vs found) : g.Visits order (v :: vs) found
  | new {order vs mid found : List String} {v : String} (hv : v ∉ order)
      (hbelow : g.Visits (order ++ [v]) (g.neighbors v) mid)
      (hrest : g.Visits mid vs found) : g.Visits order (v :: vs) found

theorem visits_append : g.Visits order (vs ++ ws) found
    ↔ ∃ mid, g.Visits order vs mid ∧ g.Visits mid ws found := by
  induction vs generalizing order with
  | nil =>
      constructor
      · intro h
        exact ⟨order, .done order, h⟩
      · rintro ⟨mid, hnone, h⟩
        cases hnone with
        | done => exact h
  | cons v vs ih =>
      constructor
      · intro h
        cases h with
        | old hv hrest =>
            obtain ⟨mid, hvs, hws⟩ := ih.mp hrest
            exact ⟨mid, .old hv hvs, hws⟩
        | new hv hbelow hrest =>
            obtain ⟨mid, hvs, hws⟩ := ih.mp hrest
            exact ⟨mid, .new hv hbelow hvs, hws⟩
      · rintro ⟨mid, hvs, hws⟩
        cases hvs with
        | old hv hrest => exact .old hv (ih.mpr ⟨mid, hrest, hws⟩)
        | new hv hbelow hrest => exact .new hv hbelow (ih.mpr ⟨mid, hrest, hws⟩)

/-- The search has one result. -/
theorem Visits.unique {found' : List String} (h : g.Visits order vs found)
    (h' : g.Visits order vs found') : found = found' := by
  induction h generalizing found' with
  | done order => cases h' with
    | done => rfl
  | old hv _ ih => cases h' with
    | old _ hrest => exact ih hrest
    | new hnew _ _ => exact absurd hv hnew
  | new hv _ _ ihbelow ihrest => cases h' with
    | old hold _ => exact absurd hold hv
    | new _ hbelow hrest =>
        rw [ihbelow hbelow] at ihrest
        exact ihrest hrest

/-- Where everything has been visited nothing is found. -/
theorem visits_of_subset (h : ∀ v ∈ vs, v ∈ order) : g.Visits order vs order := by
  induction vs with
  | nil => exact .done order
  | cons v vs ih =>
      obtain ⟨hv, hvs⟩ := List.forall_mem_cons.mp h
      exact .old hv (ih hvs)

/-- **WALKS ARE SEARCHES**: with enough pops a walk finds what the recursive search finds. -/
theorem visits_walk (pops : Nat) : ∀ stack order, (∀ v ∈ stack, v ∈ g.nodes) →
    g.pending order + stack.length ≤ pops → g.Visits order stack (g.walk pops stack order) := by
  induction pops with
  | zero =>
      intro stack order _ hpops
      have hstack : stack = [] := List.length_eq_zero_iff.mp (by omega)
      rw [hstack]
      exact .done order
  | succ pops ih =>
      intro stack order hstack hpops
      cases stack with
      | nil => exact .done order
      | cons v stack =>
          obtain ⟨hv, hstack⟩ := List.forall_mem_cons.mp hstack
          rw [List.length_cons] at hpops
          by_cases hmem : v ∈ order
          · rw [walk_visited hmem]
            exact .old hmem (ih stack order hstack (by omega))
          · rw [walk_new hmem]
            have hpending := pending_append hv hmem
            have hwalk := ih (g.neighbors v ++ stack) (order ++ [v])
              (List.forall_mem_append.mpr ⟨fun w hw => mem_nodes_of_neighbors hw, hstack⟩)
              (by rw [List.length_append]; omega)
            obtain ⟨mid, hbelow, hrest⟩ := visits_append.mp hwalk
            exact .new hmem hbelow hrest

/-! ## What a search finds -/

/-- After those of `order`, each of the entities is in the list or a neighbour of one that comes
    before it. -/
def Trails (g : JoinGraph) (vs : List String) : (order fresh : List String) → Prop
  | _, [] => True
  | order, v :: fresh =>
    (v ∈ vs ∨ ∃ u ∈ order, v ∈ g.neighbors u) ∧ g.Trails vs (order ++ [v]) fresh

theorem trails_append {fresh fresh' : List String} : g.Trails vs order (fresh ++ fresh')
    ↔ g.Trails vs order fresh ∧ g.Trails vs (order ++ fresh) fresh' := by
  induction fresh generalizing order with
  | nil => rw [List.nil_append, List.append_nil, Trails, true_and]
  | cons v fresh ih =>
      rw [List.cons_append, Trails, Trails, ih, and_assoc, List.append_assoc, List.singleton_append]

theorem Trails.mono {fresh : List String} (h : g.Trails vs order fresh)
    (hlisted : ∀ v ∈ vs, v ∈ ws ∨ ∃ u ∈ order, v ∈ g.neighbors u) : g.Trails ws order fresh := by
  induction fresh generalizing order with
  | nil => trivial
  | cons v fresh ih =>
      obtain ⟨hv, hfresh⟩ := h
      refine ⟨hv.elim (hlisted v) .inr, ih hfresh fun w hw => ?_⟩
      refine (hlisted w hw).imp_right ?_
      rintro ⟨u, hu, hneighbor⟩
      exact ⟨u, List.mem_append_left _ hu, hneighbor⟩

/-- What is found is visited from the list or from a neighbour that was visited before. -/
theorem exists_trails_of_visits (h : g.Visits order vs found) :
    ∃ fresh, found = order ++ fresh ∧ g.Trails vs order fresh := by
  induction h with
  | done order => exact ⟨[], (List.append_nil order).symm, trivial⟩
  | old _ _ ih =>
      obtain ⟨fresh, rfl, htrails⟩ := ih
      exact ⟨fresh, rfl, htrails.mono fun v hv => .inl (List.mem_cons_of_mem _ hv)⟩
  | @new order vs _ _ w _ _ _ ihbelow ihrest =>
      obtain ⟨below, rfl, hbelow⟩ := ihbelow
      obtain ⟨rest, rfl, hrest⟩ := ihrest
      have hw : w ∈ order ++ [w] := List.mem_append_right _ List.mem_cons_self
      refine ⟨w :: (below ++ rest), by simp, .inl List.mem_cons_self, trails_append.mpr ⟨?_, ?_⟩⟩
      · exact hbelow.mono fun v hv => .inr ⟨w, hw, hv⟩
      · exact hrest.mono fun v hv => .inl (List.mem_cons_of_mem _ hv)

/-- A search from one entity finds it first, and then what trails from it. -/
theorem exists_of_visits_singleton {start : String} (h : g.Visits [] [start] order) :
    ∃ rest, order = start :: rest ∧ g.Trails (g.neighbors start) [start] rest := by
  cases h with
  | old hold _ => exact absurd hold List.not_mem_nil
  | new _ hbelow hrest =>
      cases hrest with
      | done => exact exists_trails_of_visits hbelow

/-- What a search from one entity finds after it is a neighbour of what it has found before. -/
theorem exists_neighbor_of_visits {start : String} {before after : List String}
    (h : g.Visits [] [start] (before ++ v :: after)) (hne : before ≠ []) :
    ∃ u ∈ before, v ∈ g.neighbors u := by
  obtain ⟨rest, hsplit, htrails⟩ := exists_of_visits_singleton h
  obtain ⟨u, before, rfl⟩ := List.exists_cons_of_ne_nil hne
  obtain ⟨rfl, rfl⟩ := List.cons.inj hsplit
  obtain ⟨-, hv, -⟩ := trails_append.mp htrails
  rcases hv with hv | hv
  · exact ⟨u, List.mem_cons_self, hv⟩
  · exact hv

/-! ## Connected prefixes -/

/-- A part of a connected order is connected: it grows by neighbours of what it has. -/
theorem isConnected_subgraph_of_neighbors (order : List String) (hnames : ∀ v ∈ order, v ∈ g.names)
    (hneighbor : ∀ before v after, order = before ++ v :: after → before ≠ [] →
      ∃ u ∈ before, v ∈ g.neighbors u) : (g.subgraph order).isConnected = true := by
  induction order using List.reverseRecOn with
  | nil => rw [subgraph_nil]; rfl
  | append_singleton order v ih =>
      have hbefore := ih (fun w hw => hnames w (List.mem_append_left _ hw))
        fun before w after hsplit => hneighbor before w (after ++ [v]) (by simp [hsplit])
      have hwithin : (g.subgraph order).EdgesWithin (g.subgraph (order ++ [v])) := by
        intro e he
        obtain ⟨he, hs, ht⟩ := mem_edges_subgraph.mp he
        exact mem_edges_subgraph.mpr
          ⟨he, List.mem_append_left _ hs, List.mem_append_left _ ht⟩
      have hclosed : (g.subgraph order).IsClosed :=
        isClosed_subgraph fun w hw => hnames w (List.mem_append_left _ hw)
      have hmem : ∀ w ∈ order, w ∈ (g.subgraph order).names := fun w hw =>
        mem_names_subgraph.mpr ⟨hnames w (List.mem_append_left _ hw), hw⟩
      -- everything is reached from the last entity
      have hall : ∀ w ∈ (g.subgraph (order ++ [v])).names,
          (g.subgraph (order ++ [v])).adjacency.Reachable v w := by
        intro w hw
        rcases List.mem_append.mp (mem_names_subgraph.mp hw).2 with hw | hw
        · obtain ⟨u, hu, hneighbor⟩ := hneighbor order v [] rfl (List.ne_nil_of_mem hw)
          have hstep : u ∈ (g.subgraph (order ++ [v])).neighbors v := by
            obtain ⟨e, he, hjoins⟩ := mem_neighbors.mp hneighbor
            refine mem_neighbors.mpr ⟨e, mem_edges_subgraph.mpr ⟨he, ?_⟩, hjoins.symm⟩
            have hends : u ∈ order ++ [v] ∧ v ∈ order ++ [v] :=
              ⟨List.mem_append_left _ hu, List.mem_append_right _ List.mem_cons_self⟩
            rcases hjoins with ⟨rfl, rfl⟩ | ⟨rfl, rfl⟩
            · exact hends
            · exact hends.symm
          exact (reachable_of_mem_neighbors hstep).trans
            (((hclosed.isJoined hbefore).joined u (hmem u hu) w (hmem w hw)).mono
              (adjacency_mono hwithin))
        · rw [List.mem_singleton.mp hw]
      exact (isConnected_iff (isClosed_subgraph hnames).keepsWalks).mpr
        fun a ha b hb => (hall a ha).symm.trans (hall b hb)

/-! ## The first entity -/

/-- The neighbours of an entity are listed by name. -/
theorem pairwise_neighbors (g : JoinGraph) (v : String) : (g.neighbors v).Pairwise (· < ·) :=
  (SortedSet.increasing _).imp fun hlt => singleton_lt_singleton.mp hlt

/-- The number of rows of an entity. -/
def rows (g : JoinGraph) (name : String) : Nat := (g.entity? name).elim 0 (·.count)

/-- The entity has the fewest rows of those to choose from, and of several with the fewest the
    first name. -/
def IsSmallest (g : JoinGraph) (among : String → Prop) (v : String) : Prop :=
  among v ∧ ∀ w, among w → g.rows v < g.rows w ∨ g.rows v = g.rows w ∧ v ≤ w

/-- Of two entities the one that has more rows, or as many and a later name, can be left out. -/
theorem IsSmallest.of_best {name n : String} {rest : List String} (hlt : name < n)
    (h : g.IsSmallest (· ∈ (if g.rows n < g.rows name then n else name) :: rest) v) :
    g.IsSmallest (· ∈ name :: n :: rest) v := by
  obtain ⟨hmem, hleast⟩ := h
  obtain ⟨hbest, hrest⟩ := List.forall_mem_cons.mp hleast
  by_cases hrows : g.rows n < g.rows name
  · rw [if_pos hrows] at hmem hbest
    refine ⟨List.mem_cons_of_mem _ hmem, List.forall_mem_cons.mpr ⟨.inl ?_,
      List.forall_mem_cons.mpr ⟨hbest, hrest⟩⟩⟩
    omega
  · rw [if_neg hrows] at hmem hbest
    refine ⟨?_, List.forall_mem_cons.mpr ⟨hbest, List.forall_mem_cons.mpr ⟨?_, hrest⟩⟩⟩
    · rcases List.mem_cons.mp hmem with rfl | hmem
      · exact List.mem_cons_self
      · exact List.mem_cons_of_mem _ (List.mem_cons_of_mem _ hmem)
    · by_cases hsame : g.rows v = g.rows n
      · have hle : v ≤ name := hbest.elim (fun hfewer => by omega) fun htie => htie.2
        exact .inr ⟨hsame, hle.trans hlt.le⟩
      · exact .inl (by omega)

theorem isSmallest_of_fewestRows {names : List String} (hsorted : names.Pairwise (· < ·))
    (h : g.fewestRows names = some v) : g.IsSmallest (· ∈ names) v := by
  cases names with
  | nil => exact nomatch h
  | cons name rest =>
      simp only [fewestRows, Option.some.injEq] at h
      rw [← h]
      clear h
      induction rest generalizing name with
      | nil =>
          refine ⟨List.mem_cons_self, fun w hw => ?_⟩
          rw [List.mem_singleton.mp hw]
          exact .inr ⟨rfl, le_refl name⟩
      | cons n rest ih =>
          obtain ⟨hname, hrest⟩ := List.pairwise_cons.mp hsorted
          refine (ih (if g.rows n < g.rows name then n else name) ?_).of_best
            (hname n List.mem_cons_self)
          split
          · exact hrest
          · exact hsorted.sublist ((List.sublist_cons_self n rest).cons_cons name)

/-- The entity is a leaf, and one with an equality condition unless no leaf has any. -/
def IsCandidate (g : JoinGraph) (eq : FieldSet) (v : String) : Prop :=
  v ∈ g.leaves ∧ ((∃ w ∈ g.leaves, ∃ f ∈ eq.toList, f.entity = w) → ∃ f ∈ eq.toList, f.entity = v)

/-- **THE START IS THE SMALLEST**: a join order starts, of the leaves with an equality condition or
    else of all leaves, at the one with the fewest rows, and of several at the first by name. -/
theorem isSmallest_of_startLeaf (h : g.startLeaf eq = some v) :
    g.IsSmallest (g.IsCandidate eq) v := by
  have hleaves : g.leaves.Pairwise (· < ·) := (pairwise_names g).filter _
  have hconditioned : ∀ w, w ∈ g.leaves.filter (fun leaf => eq.toList.any (·.entity == leaf))
      ↔ w ∈ g.leaves ∧ ∃ f ∈ eq.toList, f.entity = w := by
    intro w
    rw [List.mem_filter, List.any_eq_true]
    simp only [beq_iff_eq]
  simp only [startLeaf, Option.or_eq_some_iff, fewestRows_eq_none_iff] at h
  rcases h with h | ⟨hnone, h⟩
  · obtain ⟨hmem, hleast⟩ := isSmallest_of_fewestRows (hleaves.filter _) h
    obtain ⟨hleaf, hon⟩ := (hconditioned v).mp hmem
    refine ⟨⟨hleaf, fun _ => hon⟩, fun w hw => hleast w ((hconditioned w).mpr ⟨hw.1, ?_⟩)⟩
    exact hw.2 ⟨v, hleaf, hon⟩
  · obtain ⟨hmem, hleast⟩ := isSmallest_of_fewestRows hleaves h
    refine ⟨⟨hmem, ?_⟩, fun w hw => hleast w hw.1⟩
    rintro ⟨w, hw⟩
    have hfound := (hconditioned w).mpr hw
    rw [hnone] at hfound
    exact absurd hfound List.not_mem_nil

/-! ## Join orders -/

/-- The order has every entity once and is that of the recursive search from its first one.  All
    others are neighbours of one that comes before them, so that the order is connected wherever
    it is cut off. -/
structure IsPreorder (g : JoinGraph) (start : String) (order : List String) : Prop where
  nodup : order.Nodup
  mem_iff : ∀ v, v ∈ order ↔ v ∈ g.names
  neighbor : ∀ before v after, order = before ++ v :: after → before ≠ [] →
    ∃ u ∈ before, v ∈ g.neighbors u
  connected : ∀ before after, order = before ++ after → (g.subgraph before).isConnected = true
  search : ∀ found, g.Visits [] [start] found ↔ found = order

/-- A search that has found every entity once gives a preorder. -/
theorem isPreorder_of_visits {start : String} (h : g.Visits [] [start] order) (hnodup : order.Nodup)
    (hmem : ∀ v, v ∈ order ↔ v ∈ g.names) : g.IsPreorder start order := by
  have hneighbor : ∀ before v after, order = before ++ v :: after → before ≠ [] →
      ∃ u ∈ before, v ∈ g.neighbors u := by
    rintro before v after rfl hne
    exact exists_neighbor_of_visits h hne
  refine ⟨hnodup, hmem, hneighbor, fun before after hsplit => ?_, fun found => ?_⟩
  · refine isConnected_subgraph_of_neighbors before (fun v hv => ?_) fun first v rest hbefore => ?_
    · rw [← hmem, hsplit]
      exact List.mem_append_left _ hv
    · refine hneighbor first v (rest ++ after) ?_
      rw [hsplit, hbefore, List.append_assoc, List.cons_append]
  · exact ⟨fun hfound => hfound.unique h, fun hfound => by rw [hfound]; exact h⟩

/-- A join order is what the search finds from where it starts. -/
theorem exists_visits_joinOrder (hg : g.KeepsWalks) (hleaf : g.leaves ≠ []) (eq : FieldSet) :
    ∃ start rest, g.joinOrder eq = start :: rest ∧ g.Visits [] [start] (g.joinOrder eq)
      ∧ (1 < g.size → g.startLeaf eq = some start) := by
  by_cases hsize : g.size ≤ 1
  · have horder : g.joinOrder eq = g.names := by rw [joinOrder, if_pos hsize]
    obtain ⟨leaf, hmem⟩ := List.exists_mem_of_ne_nil _ hleaf
    obtain ⟨start, hnames⟩ : ∃ start, g.names = [start] := by
      have hpositive := List.length_pos_of_mem (List.mem_filter.mp hmem).1
      rw [← List.length_eq_one_iff, length_names]
      rw [length_names] at hpositive
      omega
    refine ⟨start, [], horder.trans hnames, ?_, fun hseveral => by omega⟩
    rw [horder, hnames]
    refine .new List.not_mem_nil (visits_of_subset fun v hv => ?_) (.done _)
    have hstart : start ∈ g.names := by rw [hnames]; exact List.mem_cons_self
    rw [List.nil_append, ← hnames]
    exact hg start hstart v hv
  · cases hstart : g.startLeaf eq with
    | none => exact absurd (startLeaf_eq_none_iff.mp hstart) hleaf
    | some start =>
        have horder : g.joinOrder eq = g.walk g.walkLength [start] [] := by
          rw [joinOrder, if_neg hsize, hstart]
        have hvisits : g.Visits [] [start] (g.joinOrder eq) := by
          rw [horder]
          exact visits_walk _ _ _
            (List.forall_mem_singleton.mpr (mem_nodes_of_mem_names (mem_names_of_startLeaf hstart)))
            (pending_nil_le g start)
        obtain ⟨rest, hrest, -⟩ := exists_of_visits_singleton hvisits
        exact ⟨start, rest, hrest, hvisits, fun _ => rfl⟩

/-- **JOIN ORDERS ARE CONNECTED PREORDERS**: the join order of a joined graph with a leaf is the
    depth-first preorder from its first entity, with neighbours by name; and this is, where there
    are several entities, the smallest of the leaves that the conditions leave to choose from. -/
theorem joinOrder_isPreorder (hg : g.IsJoined) (hleaf : g.leaves ≠ []) (eq : FieldSet) :
    ∃ start rest, g.joinOrder eq = start :: rest ∧ g.IsPreorder start (g.joinOrder eq)
      ∧ (∀ v, (g.neighbors v).Pairwise (· < ·))
      ∧ (1 < g.size → g.IsSmallest (g.IsCandidate eq) start) := by
  obtain ⟨start, rest, horder, hvisits, hstart⟩ := exists_visits_joinOrder hg.keepsWalks hleaf eq
  have hne : g.joinOrder eq ≠ [] := by
    rw [horder]
    exact List.cons_ne_nil start rest
  have hpreorder := isPreorder_of_visits hvisits (joinOrder_sound hg.keepsWalks eq).1
    fun v => mem_joinOrder_iff hg hne
  exact ⟨start, rest, horder, hpreorder, pairwise_neighbors g,
    fun hseveral => isSmallest_of_startLeaf (hstart hseveral)⟩

/-! ### Tasks of a project

    Teams work on projects and have a lead, tasks belong to projects and to
    people, people report to one another.  So the graph has cycles, two joins
    between people and teams and one from people to people. -/

/-- An entity with an identifier and a foreign key to each of the given ones. -/
def table (name : String) (count : Nat) (targets : List String) : Entity :=
  let id := (Field.ofType name "id" .id).withCardinality count
  ⟨name, count, id,
    SortedSet.ofList (id :: targets.map fun target => .ofType name target (.foreignKey target))⟩

def person : Entity := table "person" 50 ["person", "team"]

def team : Entity := table "team" 10 ["person", "project"]

def project : Entity := table "project" 20 []

def task : Entity := table "task" 5000 ["person", "project"]

def comment : Entity := table "comment" 90000 ["task"]

def badge : Entity := table "badge" 50 ["person"]

/-- The key of an entity that points to another one. -/
def keyTo (source target : Entity) : Field :=
  .ofType source.name target.name (.foreignKey target.name)

/-- The graph with a join along the key of the first entity to the second. -/
def joinTo (g : JoinGraph) (ends : Entity × Entity) : JoinGraph :=
  g.withEdge ends.1 ends.2 (keyTo ends.1 ends.2)

def tasks : JoinGraph :=
  [(person, person), (person, team), (team, person), (team, project), (task, person),
    (task, project), (comment, task), (badge, person)].foldl joinTo ∅

def commentText : Field := .ofType "comment" "text" (.string 200)

/-- The condition on comments decides between the two leaves; a project is found from its team
    before it is met again below its task. -/
theorem joinOrder_isPreorder_tasks :
    let eq := SortedSet.ofList [commentText]
    tasks.IsJoined ∧ tasks.leaves ≠ []
      ∧ tasks.joinOrder eq = ["comment", "task", "person", "badge", "team", "project"]
      ∧ tasks.IsPreorder "comment" (tasks.joinOrder eq)
      ∧ tasks.IsSmallest (tasks.IsCandidate eq) "comment" := by
  intro eq
  have hclosed : tasks.IsClosed := by decide +kernel
  have hjoined : tasks.IsJoined := hclosed.isJoined (by decide +kernel)
  have hleaf : tasks.leaves ≠ [] := by decide +kernel
  have horder : tasks.joinOrder eq = ["comment", "task", "person", "badge", "team", "project"] := by
    decide +kernel
  obtain ⟨start, rest, hstart, hpreorder, -, hsmallest⟩ :=
    joinOrder_isPreorder hjoined hleaf eq
  obtain rfl : start = "comment" := by
    rw [horder] at hstart
    exact (List.cons.inj hstart).1.symm
  exact ⟨hjoined, hleaf, horder, hpreorder, hsmallest (by decide +kernel)⟩

end IndexDesign.JoinGraph
