import IndexDesign.Proofs.Plan.Numbering

/-! # Plans in arenas

    The way up from a node of a branch leads through the node at which the
    branch begins, and then on from what the branch hangs from.  So the plans
    that end in branches are those of the branches, and the arena of a tree has
    the plans of the tree, in their order. -/

namespace IndexDesign

variable {α : Type}

/-! ## The way up from a node -/

namespace Arena

variable {a : Arena α} {id p : Nat} {n : ArenaNode α}

theorem lineage_of_parent (hn : a.nodes[id]? = some n) (hp : n.parent = some p) (hlt : p < id) :
    a.lineage id = id :: a.lineage p := by
  rw [lineage, hn, Option.bind_some, hp]
  exact if_pos hlt

theorem lineage_of_none (hn : a.nodes[id]?.bind (·.parent) = none) : a.lineage id = [id] := by
  rw [lineage, hn]

/-- The way up leads to smaller numbers. -/
theorem le_of_mem_lineage (a : Arena α) (id : Nat) : ∀ k ∈ a.lineage id, k ≤ id := by
  fun_induction lineage a id with
  | case1 id hnone => intro k hk; exact (List.mem_singleton.mp hk).le
  | case2 id parent hparent hlt ih =>
      intro k hk
      rcases List.mem_cons.mp hk with rfl | hk
      · exact le_rfl
      · exact (ih k hk).trans hlt.le
  | case3 id parent hparent hlt => intro k hk; exact (List.mem_singleton.mp hk).le

theorem self_mem_lineage (a : Arena α) (id : Nat) : id ∈ a.lineage id := by
  fun_cases lineage a id with
  | case1 => exact List.mem_cons_self
  | case2 => exact List.mem_cons_self
  | case3 => exact List.mem_cons_self

theorem mem_leaves_iff (h : a.isEmpty = false) {leaf : Nat} :
    leaf ∈ a.leaves ↔ 0 < leaf ∧ a.nodes[leaf]?.any (·.isLeaf) = true := by
  rw [leaves, h, if_neg Bool.false_ne_true, List.mem_filter, List.mem_range'_1]
  refine and_congr_left fun hleaf => ?_
  obtain ⟨n, hn, -⟩ := Option.any_eq_true _ _ |>.mp hleaf
  have hlt := (List.getElem?_eq_some_iff.mp hn).1
  omega

end Arena

namespace Forest

variable {a : Arena α}

/-- The way up from a node of branches leads through these and then on from what they hang from. -/
theorem lineage_of_liesIn (f : Forest α) : ∀ parent first, parent < first →
    f.LiesIn a.nodes (some parent) first → ∀ id, first ≤ id → id < first + f.size →
      ∃ own, a.lineage id = own ++ a.lineage parent ∧ ∀ k ∈ own, first ≤ k := by
  induction f with
  | empty => intro parent first _ _ id hge hlt; exact absurd hlt (by rw [size]; omega)
  | branch t onward beside ihOnward ihBeside =>
      intro parent first hparent hlies id hge hlt
      obtain ⟨hnode, honward, hbeside⟩ := hlies
      have hfirst : a.lineage first = first :: a.lineage parent :=
        Arena.lineage_of_parent hnode rfl hparent
      rw [size] at hlt
      rcases Nat.eq_or_lt_of_le hge with rfl | hlater
      · exact ⟨[first], hfirst, List.forall_mem_singleton.mpr le_rfl⟩
      · by_cases hwithin : id < first + 1 + onward.size
        · obtain ⟨own, hown, hbound⟩ :=
            ihOnward first (first + 1) (by omega) honward id hlater hwithin
          refine ⟨own ++ [first], by rw [hown, hfirst, List.append_assoc, List.singleton_append],
            fun k hk => ?_⟩
          rcases List.mem_append.mp hk with hk | hk
          · have hle := hbound k hk
            omega
          · exact (List.mem_singleton.mp hk).ge
        · obtain ⟨own, hown, hbound⟩ := ihBeside parent (first + 1 + onward.size) (by omega) hbeside
            id (by omega) (by omega)
          refine ⟨own, hown, fun k hk => ?_⟩
          have hle := hbound k hk
          omega

end Forest

/-! ## The plans of an arena -/

namespace Arena

/-- The plans that end in so many nodes from the one of a number on. -/
def plansFrom (a : Arena α) (first count : Nat) : List (Plan α) :=
  ((List.range' first count).filter fun id => a.nodes[id]?.any (·.isLeaf)).filterMap a.planAt?

theorem plansFrom_add (a : Arena α) (first m n : Nat) :
    a.plansFrom first (m + n) = a.plansFrom first m ++ a.plansFrom (first + m) n := by
  simp only [plansFrom, ← List.range'_append_1, List.filter_append, List.filterMap_append]

theorem mem_plansFrom {a : Arena α} {first count : Nat} {plan : Plan α} :
    plan ∈ a.plansFrom first count ↔ ∃ leaf, first ≤ leaf ∧ leaf < first + count
      ∧ a.nodes[leaf]?.any (·.isLeaf) = true ∧ a.planAt? leaf = some plan := by
  simp only [plansFrom, List.mem_filterMap, List.mem_filter, List.mem_range'_1, and_assoc]

/-- The steps on the way to a node. -/
def stepsTo (a : Arena α) (id : Nat) : List (Step α) := ((a.lineage id).filterMap a.step?).reverse

variable {a : Arena α} {id p : Nat} {n : ArenaNode α}

theorem stepsTo_of_parent (hn : a.nodes[id]? = some n) (hp : n.parent = some p) (hlt : p < id) :
    a.stepsTo id = a.stepsTo p ++ [n.transition.step] := by
  have hstep : a.step? id = some n.transition.step := by
    rw [step?, hn, Option.bind_some, hp, Option.map_some]
  rw [stepsTo, lineage_of_parent hn hp hlt, List.filterMap_cons_some hstep, List.reverse_cons]
  rfl

theorem plansFrom_one (hn : a.nodes[id]? = some n) :
    a.plansFrom id 1 = if n.isLeaf then [⟨a.stepsTo id, n.transition.state⟩] else [] := by
  have hplan : a.planAt? id = some ⟨a.stepsTo id, n.transition.state⟩ := by
    rw [planAt?, hn, Option.map_some]
    rfl
  rw [plansFrom, List.range'_one, List.filter_singleton, hn, Option.any_some]
  cases n.isLeaf with
  | true => exact List.filterMap_cons_some hplan
  | false => rfl

end Arena

namespace Forest

variable {a : Arena α}

/-- The plans that end in branches are those of the branches, from the steps on the way to what
    these hang from. -/
theorem plansFrom_of_liesIn (f : Forest α) : ∀ parent first, parent < first →
    f.LiesIn a.nodes (some parent) first →
      a.plansFrom first f.size = f.plans (a.stepsTo parent) := by
  induction f with
  | empty => intro parent first _ _; rfl
  | branch t onward beside ihOnward ihBeside =>
      intro parent first hparent hlies
      obtain ⟨hnode, honward, hbeside⟩ := hlies
      have hsteps : a.stepsTo first = a.stepsTo parent ++ [t.step] :=
        Arena.stepsTo_of_parent hnode rfl hparent
      rw [size, Arena.plansFrom_add, Arena.plansFrom_add, Arena.plansFrom_one hnode,
        ihOnward first (first + 1) (by omega) honward, ← Nat.add_assoc,
        ihBeside parent _ (by omega) hbeside, hsteps, ArenaNode.isLeaf, isEmpty_roots, plans]
      cases onward with
      | empty => rfl
      | branch => rfl

end Forest

namespace PlanTree

theorem isEmpty_arena (t : PlanTree α) : t.arena.isEmpty = t.isEmpty := by
  rw [Arena.isEmpty, t.root_arena, Option.all_some, ArenaNode.isLeaf, Forest.isEmpty_roots, isEmpty]

theorem stepsTo_root (t : PlanTree α) : t.arena.stepsTo 0 = [] := by
  have hparent : t.arena.nodes[0]?.bind (·.parent) = none := by
    rw [t.root_arena]
    rfl
  have hstep : t.arena.step? 0 = none := by
    rw [Arena.step?, t.root_arena]
    rfl
  rw [Arena.stepsTo, Arena.lineage_of_none hparent, List.filterMap_cons_none hstep]
  rfl

/-- **THE ARENA OF A TREE HAS ITS PLANS**, in their order. -/
theorem plans_arena (t : PlanTree α) : t.arena.plans = t.plans := by
  have hplans := t.branches.plansFrom_of_liesIn 0 1 Nat.one_pos t.liesIn_arena
  rw [t.stepsTo_root] at hplans
  rw [plans, ← hplans, Arena.plans, Arena.leaves, isEmpty_arena, isEmpty]
  by_cases hempty : t.branches.isEmpty = true
  · rw [if_pos hempty, Forest.isEmpty_iff.mp hempty]
    rfl
  · rw [if_neg hempty, t.length_arena, Nat.add_sub_cancel]
    rfl

end PlanTree

end IndexDesign
