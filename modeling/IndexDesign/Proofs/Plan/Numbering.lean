import IndexDesign.Plan.Arena
import IndexDesign.Proofs.Plan.Bounds

/-! # Plan trees in arenas

    The branches of a tree are numbered depth first: a transition, what goes on
    from it, and what lies beside it.  So branches take up consecutive numbers
    in an arena, and everything about their nodes follows by recursion over
    the branches, given where they begin and what they hang from.

    The arena of a tree has the plans of the tree, and it is well formed: its
    root alone has no parent, parents come before their children and list them
    once and in order, and visiting the nodes depth first is counting them. -/

namespace IndexDesign

variable {α : Type}

namespace Forest

/-! ## Branches that lie in an arena -/

/-- The nodes of branches, the first with the given number. -/
def cells (parent : Option Nat) (first : Nat) : Forest α → List (ArenaNode α)
  | empty => []
  | branch t onward beside =>
    ⟨t, parent, onward.roots (first + 1)⟩ ::
      (onward.cells (some first) (first + 1) ++ beside.cells parent (first + 1 + onward.size))

/-- The branches have consecutive numbers in a list of nodes, from the given one on. -/
def LiesIn (nodes : List (ArenaNode α)) (parent : Option Nat) (first : Nat) : Forest α → Prop
  | empty => True
  | branch t onward beside =>
    nodes[first]? = some ⟨t, parent, onward.roots (first + 1)⟩
      ∧ onward.LiesIn nodes (some first) (first + 1)
      ∧ beside.LiesIn nodes parent (first + 1 + onward.size)

@[simp] theorem length_cells (f : Forest α) : ∀ parent first,
    (f.cells parent first).length = f.size := by
  induction f with
  | empty => intro parent first; rfl
  | branch t onward beside ihOnward ihBeside =>
      intro parent first
      rw [cells, List.length_cons, List.length_append, ihOnward, ihBeside, size]
      omega

theorem map_nodes (f : Forest α) : ∀ parent first path,
    (f.nodes parent first path).map (fun n => ⟨n.transition, n.parent, n.children⟩)
      = f.cells (some parent) first := by
  induction f with
  | empty => intro parent first path; rfl
  | branch t onward beside ihOnward ihBeside =>
      intro parent first path
      simp only [nodes, cells, List.map_cons, List.map_append, ihOnward, ihBeside]

/-- Branches lie where their nodes are. -/
theorem liesIn_cells (f : Forest α) : ∀ (before after : List (ArenaNode α)) parent,
    f.LiesIn (before ++ f.cells parent before.length ++ after) parent before.length := by
  induction f with
  | empty => intro before after parent; trivial
  | branch t onward beside ihOnward ihBeside =>
      intro before after parent
      refine ⟨?_, ?_, ?_⟩
      · rw [cells, List.append_assoc, List.getElem?_append_right le_rfl, Nat.sub_self]
        rfl
      · have h := ihOnward (before ++ [⟨t, parent, onward.roots (before.length + 1)⟩])
          (beside.cells parent (before.length + 1 + onward.size) ++ after) (some before.length)
        simpa only [List.length_append, List.length_singleton, cells, List.append_assoc,
          List.singleton_append, List.cons_append, List.nil_append] using h
      · have h := ihBeside (before ++ ⟨t, parent, onward.roots (before.length + 1)⟩ ::
          onward.cells (some before.length) (before.length + 1)) after parent
        simpa only [List.length_append, List.length_cons, length_cells, cells, List.append_assoc,
          List.cons_append, Nat.add_assoc, Nat.add_comm 1] using h

/-! ## The first nodes of branches -/

theorem isEmpty_iff {f : Forest α} : f.isEmpty = true ↔ f = empty := by
  cases f with
  | empty => exact ⟨fun _ => rfl, fun _ => rfl⟩
  | branch => exact ⟨fun h => absurd h Bool.false_ne_true, fun h => by cases h⟩

theorem isEmpty_roots (f : Forest α) (first : Nat) : (f.roots first).isEmpty = f.isEmpty := by
  cases f with
  | empty => rfl
  | branch => rfl

theorem bounds_of_mem_roots (f : Forest α) : ∀ first, ∀ id ∈ f.roots first,
    first ≤ id ∧ id < first + f.size := by
  induction f with
  | empty => intro first id h; exact nomatch h
  | branch t onward beside _ ihBeside =>
      intro first id h
      rw [size]
      rcases List.mem_cons.mp h with rfl | h
      · omega
      · have hbounds := ihBeside _ id h
        omega

/-- Branches that lie beside each other begin one after the other. -/
theorem pairwise_roots (f : Forest α) : ∀ first, (f.roots first).Pairwise (· < ·) := by
  induction f with
  | empty => intro first; exact List.Pairwise.nil
  | branch t onward beside _ ihBeside =>
      intro first
      refine List.Pairwise.cons (fun id h => ?_) (ihBeside _)
      have hbounds := beside.bounds_of_mem_roots _ id h
      omega

variable {nodes : List (ArenaNode α)}

theorem parent_of_mem_roots {parent : Option Nat} (f : Forest α) : ∀ first,
    f.LiesIn nodes parent first →
      ∀ id ∈ f.roots first, ∃ n, nodes[id]? = some n ∧ n.parent = parent := by
  induction f with
  | empty => intro first _ id h; exact nomatch h
  | branch t onward beside _ ihBeside =>
      intro first hlies id h
      rcases List.mem_cons.mp h with rfl | h
      · exact ⟨_, hlies.1, rfl⟩
      · exact ihBeside _ hlies.2.2 id h

end Forest

theorem PlanTree.arena_nodes (t : PlanTree α) : t.arena.nodes
    = ⟨t.root, none, t.branches.roots 1⟩ :: t.branches.cells (some 0) 1 := by
  rw [arena, nodes, List.map_cons, Forest.map_nodes]

/-- The branches of a tree lie behind the root. -/
theorem PlanTree.liesIn_arena (t : PlanTree α) :
    t.branches.LiesIn t.arena.nodes (some 0) 1 := by
  have h := t.branches.liesIn_cells [⟨t.root, none, t.branches.roots 1⟩] [] (some 0)
  rwa [List.append_nil, List.singleton_append, List.length_singleton, ← t.arena_nodes] at h

theorem PlanTree.root_arena (t : PlanTree α) :
    t.arena.nodes[0]? = some ⟨t.root, none, t.branches.roots 1⟩ := by
  rw [t.arena_nodes]
  rfl

theorem PlanTree.length_arena (t : PlanTree α) :
    t.arena.nodes.length = t.branches.size + 1 := by
  rw [t.arena_nodes, List.length_cons, Forest.length_cells]

/-! ## Well-formed arenas -/

namespace Arena

/-- Depth-first search by recursion: visiting the nodes of a list one after the other, each before
    its children, meets those of `order`. -/
inductive Visits (nodes : List (ArenaNode α)) : (ids order : List Nat) → Prop
  | done : Visits nodes [] []
  | visit {id : Nat} {ids below beside : List Nat} {n : ArenaNode α} (h : nodes[id]? = some n)
      (hbelow : Visits nodes n.children below) (hbeside : Visits nodes ids beside) :
      Visits nodes (id :: ids) (id :: (below ++ beside))

variable [Scalar α]

/-- **WHAT AN ARENA HAS TO BE**. -/
structure IsWellFormed (a : Arena α) : Prop where
  root : ∃ n, a.nodes[0]? = some n ∧ n.parent = none
  /-- Every other node has a parent, which comes before it and lists it once. -/
  parent : ∀ (id : Nat) (n : ArenaNode α), 0 < id → a.nodes[id]? = some n →
    ∃ p above, n.parent = some p ∧ p < id ∧ a.nodes[p]? = some above
      ∧ above.children.count id = 1
  /-- Children are listed in order, and each has the node as its parent. -/
  children : ∀ (id : Nat) (n : ArenaNode α), a.nodes[id]? = some n →
    n.children.Pairwise (· < ·)
      ∧ ∀ c ∈ n.children, ∃ below, a.nodes[c]? = some below ∧ below.parent = some id
  /-- Numbers are given depth first, a node before its children. -/
  preorder : Visits a.nodes [0] (List.range a.nodes.length)
  leaf : ∀ (id : Nat) (n : ArenaNode α), 0 < id → a.nodes[id]? = some n →
    (n.isLeaf = true ↔ n.transition.state.isAnswered = true)

end Arena

namespace Forest

variable {nodes : List (ArenaNode α)}

/-- Visiting branches depth first is counting their nodes. -/
theorem visits_of_liesIn (f : Forest α) : ∀ parent first, f.LiesIn nodes parent first →
    Arena.Visits nodes (f.roots first) (List.range' first f.size) := by
  induction f with
  | empty => intro parent first _; exact .done
  | branch t onward beside ihOnward ihBeside =>
      intro parent first hlies
      obtain ⟨hnode, honward, hbeside⟩ := hlies
      have h := Arena.Visits.visit hnode (ihOnward _ _ honward) (ihBeside _ _ hbeside)
      rw [List.range'_append_1] at h
      rwa [size, Nat.add_assoc, Nat.add_comm 1, List.range'_succ]

/-- The branches end where the state is answered, and nowhere else. -/
def EndAnswered [Scalar α] : Forest α → Prop
  | empty => True
  | branch t onward beside =>
    (onward.isEmpty = true ↔ t.state.isAnswered = true)
      ∧ onward.EndAnswered ∧ beside.EndAnswered

/-- Every number of branches is that of a transition, whose children are what goes on from it, and
    whose parent is a transition before it or what the branches hang from. -/
theorem exists_of_liesIn [Scalar α] (f : Forest α) : ∀ parent first, parent < first →
    f.LiesIn nodes (some parent) first → f.EndAnswered →
      ∀ id, first ≤ id → id < first + f.size → ∃ (t : Transition α) (p : Nat) (onward : Forest α),
        nodes[id]? = some ⟨t, some p, onward.roots (id + 1)⟩
          ∧ onward.LiesIn nodes (some id) (id + 1)
          ∧ (onward.isEmpty = true ↔ t.state.isAnswered = true) ∧ p < id
          ∧ (p = parent ∧ id ∈ f.roots first
            ∨ ∃ above, nodes[p]? = some above ∧ above.children.Pairwise (· < ·)
              ∧ id ∈ above.children) := by
  induction f with
  | empty => intro parent first _ _ _ id hge hlt; exact absurd hlt (by rw [size]; omega)
  | branch t onward beside ihOnward ihBeside =>
      intro parent first hparent hlies hends id hge hlt
      obtain ⟨hnode, honward, hbeside⟩ := hlies
      obtain ⟨hend, hendsOnward, hendsBeside⟩ := hends
      rw [size] at hlt
      rcases Nat.eq_or_lt_of_le hge with rfl | hlater
      · exact ⟨t, parent, onward, hnode, honward, hend, hparent, .inl ⟨rfl, List.mem_cons_self⟩⟩
      · by_cases hwithin : id < first + 1 + onward.size
        · obtain ⟨t', p, onward', hnode', honward', hend', hlt', hplace⟩ :=
            ihOnward first (first + 1) (by omega) honward hendsOnward id hlater hwithin
          refine ⟨t', p, onward', hnode', honward', hend', hlt', .inr ?_⟩
          rcases hplace with ⟨rfl, hroot⟩ | habove
          · exact ⟨_, hnode, onward.pairwise_roots _, hroot⟩
          · exact habove
        · obtain ⟨t', p, onward', hnode', honward', hend', hlt', hplace⟩ :=
            ihBeside parent (first + 1 + onward.size) (by omega) hbeside hendsBeside id (by omega)
              (by omega)
          refine ⟨t', p, onward', hnode', honward', hend', hlt', ?_⟩
          exact hplace.imp_left fun h => ⟨h.1, List.mem_cons_of_mem _ h.2⟩

end Forest

/-- **THE ARENA OF A TREE IS WELL FORMED** where its branches end in answered states. -/
theorem PlanTree.isWellFormed_arena [Scalar α] {t : PlanTree α} (h : t.branches.EndAnswered) :
    t.arena.IsWellFormed := by
  have hroot := t.root_arena
  have hlies := t.liesIn_arena
  have hat := t.branches.exists_of_liesIn 0 1 Nat.one_pos hlies h
  have hbound : ∀ (id : Nat) (n : ArenaNode α), t.arena.nodes[id]? = some n →
      id < 1 + t.branches.size := by
    intro id n hn
    rw [Nat.add_comm, ← t.length_arena]
    exact (List.getElem?_eq_some_iff.mp hn).1
  refine ⟨⟨_, hroot, rfl⟩, ?_, ?_, ?_, ?_⟩
  · intro id n hid hn
    obtain ⟨t', p, onward, hnode, -, -, hlt, hplace⟩ := hat id hid (hbound id n hn)
    obtain rfl := Option.some.inj (hn.symm.trans hnode)
    rcases hplace with ⟨rfl, hmem⟩ | ⟨above, habove, hsorted, hmem⟩
    · exact ⟨0, _, rfl, hlt, hroot,
        List.count_eq_one_of_mem ((t.branches.pairwise_roots 1).imp Nat.ne_of_lt) hmem⟩
    · exact ⟨p, above, rfl, hlt, habove, List.count_eq_one_of_mem (hsorted.imp Nat.ne_of_lt) hmem⟩
  · intro id n hn
    rcases Nat.eq_zero_or_pos id with rfl | hid
    · obtain rfl := Option.some.inj (hn.symm.trans hroot)
      exact ⟨t.branches.pairwise_roots 1, t.branches.parent_of_mem_roots 1 hlies⟩
    · obtain ⟨t', p, onward, hnode, honward, -, -, -⟩ := hat id hid (hbound id n hn)
      obtain rfl := Option.some.inj (hn.symm.trans hnode)
      exact ⟨onward.pairwise_roots _, onward.parent_of_mem_roots _ honward⟩
  · have hvisits := Arena.Visits.visit hroot (t.branches.visits_of_liesIn _ 1 hlies) .done
    rw [List.append_nil] at hvisits
    rwa [t.length_arena, List.range_eq_range', List.range'_succ]
  · intro id n hid hn
    obtain ⟨t', p, onward, hnode, -, hend, -, -⟩ := hat id hid (hbound id n hn)
    obtain rfl := Option.some.inj (hn.symm.trans hnode)
    rw [ArenaNode.isLeaf, Forest.isEmpty_roots]
    exact hend

end IndexDesign
