import IndexDesign.Proofs.Graph.Preorder

/-! # Longest paths of forests

    The search for a longest path starts at leaves only, and compares only paths
    that cannot be extended.  In a forest this misses no longest path: where an
    entity of the path were joined to the first one, other than the second, the
    edge and the path between the two would close a cycle; and an entity that
    is joined to the first or the last one but not on the path would make the
    path longer.

    So every longest path is among the ones compared, and the fold over them
    keeps the smallest of the longest. -/

namespace IndexDesign.JoinGraph

variable {g : JoinGraph} {a b v : String} {path path' best : List String}

/-! ## Forests -/

/-- The graph joins entities without cycles and self-loops; several edges may join the same
    entities. -/
structure IsForest (g : JoinGraph) : Prop where
  keepsWalks : g.KeepsWalks
  acyclic : g.adjacency.IsAcyclic
  loopless : ∀ e ∈ g.edges, e.source ≠ e.target

theorem IsTree.isForest (h : g.IsTree) : g.IsForest :=
  ⟨h.closed.keepsWalks, h.acyclic, h.loopless⟩

theorem adj_of_mem_neighbors (hg : g.IsForest) (h : b ∈ g.neighbors a) : g.adjacency.Adj a b := by
  obtain ⟨e, he, hjoins⟩ := mem_neighbors.mp h
  refine adj_iff.mpr ⟨?_, e, he, hjoins⟩
  rintro rfl
  rcases hjoins with ⟨hs, ht⟩ | ⟨hs, ht⟩
  · exact hg.loopless e he (hs.trans ht.symm)
  · exact hg.loopless e he (hs.trans ht.symm)

/-! ## Paths -/

/-- Entities of the graph, none of them twice, of which consecutive ones are neighbours. -/
structure IsPath (g : JoinGraph) (path : List String) : Prop where
  mem : ∀ v ∈ path, v ∈ g.names
  nodup : path.Nodup
  chain : path.IsChain fun a b => b ∈ g.neighbors a

/-- No path of the graph has more entities. -/
structure IsLongest (g : JoinGraph) (path : List String) : Prop where
  isPath : g.IsPath path
  length_le : ∀ other, g.IsPath other → other.length ≤ path.length

theorem isPath_nil (g : JoinGraph) : g.IsPath [] :=
  ⟨fun _ hv => absurd hv List.not_mem_nil, List.nodup_nil, .nil⟩

theorem isPath_singleton (hv : v ∈ g.names) : g.IsPath [v] :=
  ⟨fun w hw => by rw [List.mem_singleton.mp hw]; exact hv, List.nodup_singleton v, .singleton v⟩

/-- A path goes on to a neighbour of its last entity that is not on it. -/
theorem isPath_append_singleton (hg : g.KeepsWalks) (h : g.IsPath (path ++ [a]))
    (hb : b ∈ g.neighbors a) (hnew : b ∉ path ++ [a]) : g.IsPath (path ++ [a] ++ [b]) := by
  refine ⟨fun v hv => ?_, ?_, ?_⟩
  · rcases List.mem_append.mp hv with hv | hv
    · exact h.mem v hv
    · rw [List.mem_singleton.mp hv]
      exact hg a (h.mem a (List.mem_append_right _ List.mem_cons_self)) b hb
  · refine List.nodup_append.mpr ⟨h.nodup, List.nodup_singleton b, fun x hx y hy hxy => hnew ?_⟩
    rw [← List.mem_singleton.mp hy, ← hxy]
    exact hx
  · rw [List.append_assoc]
    exact List.isChain_append_cons_cons.mpr ⟨h.chain, hb, .singleton b⟩

/-- A path can be started one entity earlier, at a neighbour that is not on it. -/
theorem isPath_cons (hg : g.KeepsWalks) (h : g.IsPath (a :: path)) (hb : b ∈ g.neighbors a)
    (hnew : b ∉ a :: path) : g.IsPath (b :: a :: path) :=
  ⟨List.forall_mem_cons.mpr ⟨hg a (h.mem a List.mem_cons_self) b hb, h.mem⟩,
    List.nodup_cons.mpr ⟨hnew, h.nodup⟩,
    List.isChain_cons_cons.mpr ⟨mem_neighbors_comm.mp hb, h.chain⟩⟩

theorem IsPath.length_le_nodes (h : g.IsPath path) : path.length ≤ g.nodes.length :=
  (List.subperm_of_subset h.nodup fun v hv => mem_nodes_of_mem_names (h.mem v hv)).length_le

theorem exists_isLongest (g : JoinGraph) : ∃ path, g.IsLongest path := by
  let lengths : Set Nat := {n | ∃ path, g.IsPath path ∧ path.length = n}
  have hbound : BddAbove lengths := by
    refine ⟨g.nodes.length, ?_⟩
    rintro n ⟨path, hpath, rfl⟩
    exact hpath.length_le_nodes
  have hsome : lengths.Nonempty := ⟨0, [], isPath_nil g, rfl⟩
  obtain ⟨path, hpath, hlength⟩ := Nat.sSup_mem hsome hbound
  refine ⟨path, hpath, fun other hother => ?_⟩
  rw [hlength]
  exact le_csSup hbound ⟨other, hother, rfl⟩

/-- A longest path cannot be extended. -/
theorem IsLongest.not_isPath_append (h : g.IsLongest path) (v : String) :
    ¬ g.IsPath (path ++ [v]) := by
  intro hlonger
  have hle := h.length_le _ hlonger
  rw [List.length_append, List.length_singleton] at hle
  omega

/-! ## Longest paths start at leaves -/

/-- What follows on a path is reachable along it. -/
theorem reachable_of_isChain {G : SimpleGraph String} (h : (a :: path).IsChain G.Adj)
    (hb : b ∈ path) : G.Reachable a b := by
  induction path generalizing a with
  | nil => exact absurd hb List.not_mem_nil
  | cons c path ih =>
      obtain ⟨hadj, hchain⟩ := List.isChain_cons_cons.mp h
      rcases List.mem_cons.mp hb with rfl | hb
      · exact hadj.reachable
      · exact hadj.reachable.trans (ih hchain hb)

/-- The first entity of a path in a forest is joined to no later one than the second. -/
theorem not_mem_neighbors_of_isPath (hg : g.IsForest) (h : g.IsPath (a :: b :: path))
    (hv : v ∈ path) : v ∉ g.neighbors a := by
  intro hneighbor
  obtain ⟨ha, hnodup⟩ := List.nodup_cons.mp h.nodup
  obtain ⟨hb, hchain⟩ := List.isChain_cons_cons.mp h.chain
  have hbv : b ≠ v := fun heq => (List.nodup_cons.mp hnodup).1 (heq ▸ hv)
  -- the path leads from the one end of the edge to the other without using it
  let others := g.adjacency.deleteEdges {s(a, v)}
  have hfirst : others.Adj a b := by
    refine SimpleGraph.deleteEdges_adj.mpr ⟨adj_of_mem_neighbors hg hb, fun hmem => hbv ?_⟩
    exact Sym2.congr_right.mp hmem
  have hrest : (b :: path).IsChain others.Adj := by
    refine hchain.imp_of_mem_imp fun x y hx hy hxy => ?_
    refine SimpleGraph.deleteEdges_adj.mpr ⟨adj_of_mem_neighbors hg hxy, fun hmem => ?_⟩
    have hends : a ∈ s(x, y) := by
      rw [Set.mem_singleton_iff.mp hmem]
      exact Sym2.mem_mk_left a v
    rcases Sym2.mem_iff.mp hends with rfl | rfl
    · exact ha hx
    · exact ha hy
  refine not_reachable_of_not_adj hg.acyclic (SimpleGraph.deleteEdges_le _)
    (adj_of_mem_neighbors hg hneighbor) (fun hadj => ?_)
    (hfirst.reachable.trans (reachable_of_isChain hrest hv))
  exact (SimpleGraph.deleteEdges_adj.mp hadj).2 rfl

/-- **LONGEST PATHS START AT LEAVES** in a forest. -/
theorem mem_leaves_of_isLongest (hg : g.IsForest) (h : g.IsLongest (a :: path)) :
    a ∈ g.leaves := by
  have hmem : a ∈ g.names := h.isPath.mem a List.mem_cons_self
  -- a neighbour elsewhere would make the path longer
  have hon : ∀ v ∈ g.neighbors a, v ∈ path := by
    intro v hv
    have hne : v ≠ a := fun heq => (adj_of_mem_neighbors hg hv).ne heq.symm
    by_contra hnot
    have hlonger := isPath_cons hg.keepsWalks h.isPath hv fun hmem =>
      (List.mem_cons.mp hmem).elim hne hnot
    have hle := h.length_le _ hlonger
    simp only [List.length_cons] at hle
    omega
  cases path with
  | nil => exact mem_leaves_of_subset (w := a) hmem fun v hv => absurd (hon v hv) List.not_mem_nil
  | cons b path =>
      refine mem_leaves_of_subset (w := b) hmem fun v hv => ?_
      rcases List.mem_cons.mp (hon v hv) with rfl | hlater
      · rfl
      · exact absurd hv (not_mem_neighbors_of_isPath hg h.isPath hlater)

/-! ## The search -/

theorem mem_next {next : List String} (hnext : (g.neighbors a).filter (! path.contains ·) = next) :
    v ∈ next ↔ v ∈ g.neighbors a ∧ v ∉ path := by
  rw [← hnext, List.mem_filter, Bool.not_eq_true', Bool.eq_false_iff, ne_eq,
    List.contains_iff_mem]

/-- **THE SEARCH IS SOUND**: going on from a path gives paths. -/
theorem isPath_of_mem_maximalPaths (hg : g.KeepsWalks) (steps : Nat) :
    ∀ last path, g.IsPath (path ++ [last]) →
    ∀ found ∈ g.maximalPaths steps last (path ++ [last]), g.IsPath found := by
  induction steps with
  | zero =>
      intro last path hpath found hfound
      rw [List.mem_singleton.mp hfound]
      exact hpath
  | succ steps ih =>
      intro last path hpath found hfound
      rw [maximalPaths] at hfound
      split at hfound
      · rw [List.mem_singleton.mp hfound]
        exact hpath
      · next next hnext =>
        obtain ⟨v, hv, hfound⟩ := List.mem_flatMap.mp hfound
        obtain ⟨hneighbor, hnew⟩ := (mem_next rfl).mp hv
        exact ih v (path ++ [last]) (isPath_append_singleton hg hpath hneighbor hnew) found hfound

/-- **THE SEARCH IS COMPLETE**: going on from the start of a path that cannot be extended, with
    enough steps, finds it. -/
theorem mem_maximalPaths (hg : g.KeepsWalks) (steps : Nat) :
    ∀ last path rest, g.IsPath (path ++ [last] ++ rest) →
    (∀ v, ¬ g.IsPath (path ++ [last] ++ rest ++ [v])) → rest.length ≤ steps →
    path ++ [last] ++ rest ∈ g.maximalPaths steps last (path ++ [last]) := by
  induction steps with
  | zero =>
      intro last path rest _ _ hsteps
      rw [List.length_eq_zero_iff.mp (Nat.le_zero.mp hsteps), List.append_nil]
      exact List.mem_singleton.mpr rfl
  | succ steps ih =>
      intro last path rest hpath hend hsteps
      rw [maximalPaths]
      cases rest with
      | nil =>
          rw [List.append_nil] at hpath hend ⊢
          have hnone : (g.neighbors last).filter (! (path ++ [last]).contains ·) = [] := by
            refine List.eq_nil_iff_forall_not_mem.mpr fun v hv => ?_
            obtain ⟨hneighbor, hnew⟩ := (mem_next rfl).mp hv
            exact hend v (isPath_append_singleton hg hpath hneighbor hnew)
          rw [hnone]
          exact List.mem_singleton.mpr rfl
      | cons v rest =>
          have hv : v ∈ (g.neighbors last).filter (! (path ++ [last]).contains ·) := by
            refine (mem_next rfl).mpr ⟨?_, fun hmem => ?_⟩
            · have hchain := hpath.chain
              rw [List.append_assoc] at hchain
              exact (List.isChain_append_cons_cons.mp hchain).2.1
            · exact (List.nodup_append.mp hpath.nodup).2.2 v hmem v List.mem_cons_self rfl
          have hsplit : path ++ [last] ++ v :: rest = path ++ [last] ++ [v] ++ rest := by simp
          rw [hsplit] at hpath hend ⊢
          have hfound := ih v (path ++ [last]) rest hpath hend
            (by rw [List.length_cons] at hsteps; omega)
          split
          · next hnone => rw [hnone] at hv; exact absurd hv List.not_mem_nil
          · exact List.mem_flatMap.mpr ⟨v, hv, hfound⟩

/-! ## The best path -/

/-- The first path is longer, or as long and no later by names. -/
def IsNoWorse (path other : List String) : Prop :=
  other.length < path.length ∨ other.length = path.length ∧ path ≤ other

theorem IsNoWorse.refl (path : List String) : IsNoWorse path path := .inr ⟨rfl, le_refl path⟩

theorem IsNoWorse.trans (h : IsNoWorse path' best) (h' : IsNoWorse best path) :
    IsNoWorse path' path := by
  rcases h with h | ⟨hlength, h⟩
  · rcases h' with h' | ⟨hlength', -⟩
    · exact .inl (by omega)
    · exact .inl (by omega)
  · rcases h' with h' | ⟨hlength', h'⟩
    · exact .inl (by omega)
    · exact .inr ⟨by omega, h.trans h'⟩

/-- The better one of two paths is one of them, and no worse than either. -/
theorem betterPath_spec (best path : List String) :
    (betterPath best path = best ∨ betterPath best path = path)
      ∧ IsNoWorse (betterPath best path) best ∧ IsNoWorse (betterPath best path) path := by
  rw [betterPath]
  split
  · next h =>
    refine ⟨.inr rfl, h.imp_right fun htie => ?_, .refl path⟩
    exact ⟨htie.1.symm, le_of_lt htie.2⟩
  · next h =>
    obtain ⟨hshort, hleast⟩ := not_or.mp h
    refine ⟨.inl rfl, .refl best, ?_⟩
    by_cases hlength : path.length = best.length
    · exact .inr ⟨hlength, not_lt.mp fun hlt => hleast ⟨hlength, hlt⟩⟩
    · exact .inl (by omega)

/-- The best of several paths is one of them, and no worse than any. -/
theorem foldl_betterPath_spec (paths : List (List String)) (best : List String) :
    paths.foldl betterPath best ∈ best :: paths
      ∧ ∀ path ∈ best :: paths, IsNoWorse (paths.foldl betterPath best) path := by
  induction paths generalizing best with
  | nil =>
      refine ⟨List.mem_cons_self, fun path hpath => ?_⟩
      rw [List.mem_singleton.mp hpath]
      exact .refl best
  | cons first paths ih =>
      obtain ⟨hone, hbest, hfirst⟩ := betterPath_spec best first
      obtain ⟨hmem, hall⟩ := ih (betterPath best first)
      obtain ⟨hhead, hrest⟩ := List.forall_mem_cons.mp hall
      refine ⟨?_, List.forall_mem_cons.mpr ⟨hhead.trans hbest,
        List.forall_mem_cons.mpr ⟨hhead.trans hfirst, hrest⟩⟩⟩
      rw [List.foldl_cons]
      rcases List.mem_cons.mp hmem with heq | hmem
      · rw [heq]
        rcases hone with heq | heq
        · rw [heq]
          exact List.mem_cons_self
        · rw [heq]
          exact List.mem_cons_of_mem _ List.mem_cons_self
      · exact List.mem_cons_of_mem _ (List.mem_cons_of_mem _ hmem)

/-- The paths that are compared. -/
def candidatePaths (g : JoinGraph) : List (List String) :=
  g.leaves.flatMap fun leaf => g.maximalPaths g.nodes.length leaf [leaf]

theorem isPath_of_mem_candidatePaths (hg : g.KeepsWalks) (h : path ∈ g.candidatePaths) :
    g.IsPath path := by
  obtain ⟨leaf, hleaf, hpath⟩ := List.mem_flatMap.mp h
  exact isPath_of_mem_maximalPaths hg g.nodes.length leaf []
    (isPath_singleton (List.mem_filter.mp hleaf).1) path hpath

/-- In a forest all longest paths are compared. -/
theorem mem_candidatePaths (hg : g.IsForest) (h : g.IsLongest path) (hne : path ≠ []) :
    path ∈ g.candidatePaths := by
  obtain ⟨leaf, rest, rfl⟩ := List.exists_cons_of_ne_nil hne
  refine List.mem_flatMap.mpr ⟨leaf, mem_leaves_of_isLongest hg h, ?_⟩
  have hlength := h.isPath.length_le_nodes
  rw [List.length_cons] at hlength
  exact mem_maximalPaths hg.keepsWalks g.nodes.length leaf [] rest h.isPath h.not_isPath_append
    (by omega)

theorem longestPath_eq_foldl (g : JoinGraph) :
    g.longestPath = g.candidatePaths.foldl betterPath [] := rfl

theorem isPath_longestPath (hg : g.KeepsWalks) : g.IsPath g.longestPath := by
  have hmem := (foldl_betterPath_spec g.candidatePaths []).1
  rw [← longestPath_eq_foldl] at hmem
  rcases List.mem_cons.mp hmem with hnil | hmem
  · rw [hnil]
    exact isPath_nil g
  · exact isPath_of_mem_candidatePaths hg hmem

theorem isNoWorse_longestPath (hg : g.IsForest) (h : g.IsLongest path) :
    IsNoWorse g.longestPath path := by
  have hnoWorse := (foldl_betterPath_spec g.candidatePaths []).2
  rw [← longestPath_eq_foldl] at hnoWorse
  by_cases hne : path = []
  · exact hnoWorse path (hne ▸ List.mem_cons_self)
  · exact hnoWorse path (List.mem_cons_of_mem _ (mem_candidatePaths hg h hne))

theorem isLongest_longestPath (hg : g.IsForest) : g.IsLongest g.longestPath := by
  refine ⟨isPath_longestPath hg.keepsWalks, fun path hpath => ?_⟩
  obtain ⟨longest, hlongest⟩ := exists_isLongest g
  have hle := hlongest.length_le path hpath
  rcases isNoWorse_longestPath hg hlongest with hlt | ⟨heq, -⟩
  · omega
  · omega

/-- **THE LONGEST PATH IS LONGEST AND LEAST**: in a forest it is a path, none has more entities,
    and those with as many come no earlier by names.  It is empty only where the graph is. -/
theorem longestPath_isLongest (hg : g.IsForest) :
    g.IsPath g.longestPath
      ∧ (∀ path, g.IsPath path → path.length ≤ g.longestPath.length)
      ∧ (∀ path, g.IsPath path → path.length = g.longestPath.length → g.longestPath ≤ path)
      ∧ (g.longestPath = [] ↔ g.names = []) := by
  obtain ⟨hpath, hlength⟩ := isLongest_longestPath hg
  refine ⟨hpath, hlength, fun path hother heq => ?_, fun hnil => ?_, fun hnil => ?_⟩
  · have hlongest : g.IsLongest path := ⟨hother, fun other h => heq ▸ hlength other h⟩
    rcases isNoWorse_longestPath hg hlongest with hlt | ⟨-, hle⟩
    · omega
    · exact hle
  · refine List.eq_nil_iff_forall_not_mem.mpr fun v hv => ?_
    have hle := hlength [v] (isPath_singleton hv)
    rw [hnil] at hle
    exact absurd hle (Nat.not_succ_le_zero 0)
  · refine List.eq_nil_iff_forall_not_mem.mpr fun v hv => ?_
    have hname := hpath.mem v hv
    rw [hnil] at hname
    exact absurd hname List.not_mem_nil

/-- A task of a person in the project of a team, with a comment. -/
def board : JoinGraph :=
  [(task, person), (task, project), (team, project), (comment, task)].foldl joinTo (single task)

theorem isTree_board : board.IsTree := by
  have hperson : ((single task).joinTo (task, person)).IsTree :=
    isTree_withEdge (a := "task") (b := "person") (isTree_single task)
      (by unfold GrowsFrom; decide +kernel)
  have hproject : (((single task).joinTo (task, person)).joinTo (task, project)).IsTree :=
    isTree_withEdge (a := "task") (b := "project") hperson (by unfold GrowsFrom; decide +kernel)
  have hteam : ((((single task).joinTo (task, person)).joinTo (task, project)).joinTo
      (team, project)).IsTree :=
    isTree_withEdge (a := "project") (b := "team") hproject (by unfold GrowsFrom; decide +kernel)
  exact isTree_withEdge (a := "task") (b := "comment") hteam (by unfold GrowsFrom; decide +kernel)

/-- The comment and the person are equally far from the team; the four longest paths are those
    between it and one of them, in both directions. -/
theorem longestPath_isLongest_board : board.IsForest
    ∧ board.longestPath = ["comment", "task", "project", "team"]
    ∧ (∀ path, board.IsPath path → path.length ≤ 4)
    ∧ (∀ path, board.IsPath path → path.length = 4 →
      ["comment", "task", "project", "team"] ≤ path) := by
  have hvalue : board.longestPath = ["comment", "task", "project", "team"] := by decide +kernel
  obtain ⟨-, hlongest, hleast, -⟩ := longestPath_isLongest isTree_board.isForest
  rw [hvalue] at hlongest hleast
  exact ⟨isTree_board.isForest, hvalue, hlongest, hleast⟩

end IndexDesign.JoinGraph
