import IndexDesign.Proofs.Plan.Compaction

/-! # The search grows an arena

    The search adds a node for every step that it tries, and takes it back with
    all that was added behind it where the step leads to no answered state.  So
    what it leaves behind a node are the branches that the exploration finds
    beyond it, and what it ends with is the arena of the plan tree.

    Branches end in answered states, and still do once plans have been dropped.
    Hence every arena that the search and the dropping of plans lead to is well
    formed, and dropping plans from it filters its plans. -/

namespace IndexDesign

variable {α : Type} [Scalar α]

/-! ## Where branches end -/

namespace Forest

/-- Dropping plans keeps the ends of branches. -/
theorem EndAnswered.retain (keep : Plan α → Bool) {f : Forest α} (h : f.EndAnswered) :
    ∀ path, (f.retain keep path).EndAnswered := by
  induction f with
  | empty => intro path; trivial
  | branch t onward beside ihOnward ihBeside =>
      intro path
      obtain ⟨hend, honward, hbeside⟩ := h
      rw [retain_branch]
      split
      · next hkept =>
        refine ⟨?_, ihOnward honward _, ihBeside hbeside _⟩
        rwa [isEmpty_retain_onward_of_kept hkept]
      · exact ihBeside hbeside _

end Forest

namespace Planner

variable {p : Planner α}

theorem endAnswered_join {xs : List (Transition α × Explored α)}
    (h : ∀ x ∈ xs, (x.1.state.isAnswered = true → x.2.branches = .empty)
      ∧ x.2.branches.EndAnswered) : (join xs).EndAnswered := by
  induction xs with
  | nil => trivial
  | cons x xs ih =>
      obtain ⟨hstop, hbeyond⟩ := h x List.mem_cons_self
      have hrest := ih fun y hy => h y (List.mem_cons_of_mem _ hy)
      rw [join]
      split
      · next halive =>
        refine ⟨⟨fun hempty => ?_, fun hanswered => ?_⟩, hbeyond, hrest⟩
        · rwa [hempty, Bool.not_true, Bool.or_false] at halive
        · rw [hstop hanswered]
          rfl
      · exact hrest

/-- **BRANCHES END IN ANSWERED STATES**, and go on from any other. -/
theorem endAnswered_explore (length : Nat) : ∀ path (t : Transition α),
    (p.explore length path t).branches.EndAnswered := by
  induction length with
  | zero => intro path t; trivial
  | succ length ih =>
      intro path t
      rw [explore]
      split
      · trivial
      · refine endAnswered_join fun x hx => ?_
        obtain ⟨next, -, rfl⟩ := List.mem_map.mp hx
        exact ⟨fun hanswered => branches_of_answered hanswered length, ih _ next⟩

/-! ## Nodes behind nodes -/

/-- Going on by steps and taking back those that lead nowhere hangs on the branches that are found
    beyond the others. -/
theorem foldl_grow {grow : Transition α → Nat → List (ArenaNode α) → Bool × List (ArenaNode α)}
    {beyond : Transition α → Explored α} {id : Nat}
    (hgrow : ∀ next (nodes : List (ArenaNode α)),
      grow next nodes.length (nodes ++ [⟨next, some id, []⟩])
        = (next.state.isAnswered || !(beyond next).branches.isEmpty,
          Arena.withBranches (nodes ++ [⟨next, some id, []⟩]) nodes.length (beyond next).branches))
    (nexts : List (Transition α)) : ∀ nodes : List (ArenaNode α), id < nodes.length →
      nexts.foldl (fun nodes next =>
        let child := nodes.length
        let (alive, grown) := grow next child (nodes ++ [⟨next, some id, []⟩])
        if alive then Arena.adopt grown child else grown.take child) nodes
      = Arena.withBranches nodes id (join (nexts.map fun next => (next, beyond next))) := by
  induction nexts with
  | nil => intro nodes _; exact (Arena.withBranches_empty nodes id).symm
  | cons next nexts ih =>
      intro nodes hid
      rw [List.foldl_cons, List.map_cons, join]
      dsimp only
      rw [hgrow, Arena.withBranches_concat]
      dsimp only
      split
      -- a step that leads to an answered state is listed with the node
      · have hnode : (nodes ++ ⟨next, some id, (beyond next).branches.roots (nodes.length + 1)⟩ ::
            (beyond next).branches.cells (some nodes.length) (nodes.length + 1))[nodes.length]?
              = some ⟨next, some id, (beyond next).branches.roots (nodes.length + 1)⟩ := by
          rw [List.getElem?_append_right le_rfl, Nat.sub_self]
          rfl
        rw [Arena.adopt_of_parent hnode rfl, modify_append_left _ hid,
          Arena.withBranches_branch hid]
        refine ih _ ?_
        rw [List.length_append, List.length_modify]
        omega
      · rw [List.take_left]
        exact ih nodes hid

/-- **WHAT THE SEARCH LEAVES BEHIND A NODE** are the branches beyond its transition, and it leads to
    an answered state where there are any or its own is one. -/
theorem expand_eq (length : Nat) : ∀ path (t : Transition α) (id : Nat) (nodes : List (ArenaNode α))
    (n : ArenaNode α), nodes[id]? = some n → n.isLeaf = true →
      p.expand length path t id nodes
        = (t.state.isAnswered || !(p.explore length path t).branches.isEmpty,
          Arena.withBranches nodes id (p.explore length path t).branches) := by
  induction length with
  | zero =>
      intro path t id nodes n _ _
      rw [expand, explore, Arena.withBranches_empty, Forest.isEmpty, Bool.not_true, Bool.or_false]
  | succ length ih =>
      intro path t id nodes n hn hleaf
      have hid : id < nodes.length := (List.getElem?_eq_some_iff.mp hn).1
      rw [expand, explore]
      split
      · next hanswered =>
        rw [Arena.withBranches_empty, hanswered, Bool.true_or]
      · next hopen =>
        have hgrow (next : Transition α) (nodes : List (ArenaNode α)) :=
          ih (next.step :: path) next nodes.length (nodes ++ [⟨next, some id, []⟩]) _
            List.getElem?_concat_length rfl
        have hgrown := foldl_grow hgrow ((p.attempts path t).filterMap (·.toOption)) nodes hid
        dsimp only at hgrown ⊢
        rw [hgrown, Arena.all_isLeaf_withBranches hn hleaf, Bool.eq_false_iff.mpr hopen,
          Bool.false_or]

/-- **THE SEARCH GROWS THE ARENA OF ITS TREE**. -/
theorem arena_search (p : Planner α) (q : Query α) : (p.search q).arena = p.searchArena q := by
  have hgrown := p.expand_eq (p.branchLength q) [] (Transition.start q) 0
    [⟨Transition.start q, none, []⟩] _ rfl rfl
  have hbranches := Arena.withBranches_concat [] (Transition.start q) none (p.search q).branches
  rw [searchArena, hgrown]
  exact congrArg Arena.mk ((p.search q).arena_nodes.trans hbranches.symm)

/-! ## Arenas that plans are dropped from -/

/-- The search for the plans of a query, and any dropping of plans after it, lead to an arena. -/
inductive LeadsTo (p : Planner α) (q : Query α) : Arena α → Prop
  | searched : p.LeadsTo q (p.searchArena q)
  | retained {a : Arena α} (h : p.LeadsTo q a) (keep : Plan α → Bool) :
      p.LeadsTo q (a.retain keep)

variable {q : Query α} {a : Arena α}

/-- Each such arena is that of a tree whose branches end in answered states. -/
theorem exists_tree_of_leadsTo (h : p.LeadsTo q a) :
    ∃ tree : PlanTree α, tree.arena = a ∧ tree.branches.EndAnswered := by
  induction h with
  | searched => exact ⟨p.search q, p.arena_search q, endAnswered_explore _ _ _⟩
  | retained _ keep ih =>
      obtain ⟨tree, rfl, hends⟩ := ih
      exact ⟨tree.retain keep, tree.retain_arena keep, hends.retain keep []⟩

theorem isWellFormed_of_leadsTo (h : p.LeadsTo q a) : a.IsWellFormed := by
  obtain ⟨tree, rfl, hends⟩ := exists_tree_of_leadsTo h
  exact PlanTree.isWellFormed_arena hends

theorem plans_retain_of_leadsTo (h : p.LeadsTo q a) (keep : Plan α → Bool) :
    (a.retain keep).plans = a.plans.filter keep := by
  obtain ⟨tree, rfl, -⟩ := exists_tree_of_leadsTo h
  rw [← tree.retain_arena, PlanTree.plans_arena, PlanTree.plans_arena, PlanTree.plans_retain]

theorem leadsTo_search (p : Planner α) (q : Query α) : p.LeadsTo q (p.search q).arena := by
  rw [arena_search]
  exact .searched

theorem LeadsTo.tree_retain {tree : PlanTree α} (h : p.LeadsTo q tree.arena)
    (keep : Plan α → Bool) : p.LeadsTo q (tree.retain keep).arena := by
  rw [tree.retain_arena]
  exact h.retained keep

/-- The planner keeps its plans in such an arena, whatever it has dropped for their faults and
    their costs. -/
theorem leadsTo_of_plan [Rendered α] {tree : PlanTree α} (h : p.plan q = .ok tree) :
    p.LeadsTo q tree.arena := by
  have hvalid := (p.leadsTo_search q).tree_retain fun plan => plan.fault?.isNone
  rw [← refine_of_plan h, Planner.refine]
  cases p.config.costRatio with
  | none => exact hvalid
  | some ratio =>
      rw [Option.elim_some, PlanTree.prunedByCostRatio]
      split
      · exact hvalid
      · exact hvalid.tree_retain _

/-- **DROPPING PLANS IS FILTERING THEM**: the trees that the planner builds, before it drops plans
    and after, are arenas with the same plans in the same order, and dropping plans from either
    leaves the plans that pass the test.  The arena that is left is well formed again, so plans can
    be dropped any number of times. -/
theorem retain_filters_plans [Rendered α] (p : Planner α) (q : Query α) :
    (∀ tree, tree = p.search q ∨ p.plan q = .ok tree →
      p.LeadsTo q tree.arena ∧ tree.arena.plans = tree.plans
        ∧ ∀ keep, (tree.retain keep).arena = tree.arena.retain keep
          ∧ (tree.retain keep).plans = tree.plans.filter keep)
      ∧ ∀ a, p.LeadsTo q a → a.IsWellFormed
        ∧ ∀ keep, (a.retain keep).plans = a.plans.filter keep ∧ (a.retain keep).IsWellFormed
          ∧ p.LeadsTo q (a.retain keep) := by
  refine ⟨fun tree htree => ?_, fun a h => ?_⟩
  · refine ⟨?_, tree.plans_arena, fun keep =>
      ⟨tree.retain_arena keep, tree.plans_retain keep⟩⟩
    rcases htree with rfl | hplanned
    · exact p.leadsTo_search q
    · exact leadsTo_of_plan hplanned
  · exact ⟨isWellFormed_of_leadsTo h, fun keep => ⟨plans_retain_of_leadsTo h keep,
      isWellFormed_of_leadsTo (h.retained keep), h.retained keep⟩⟩

/-- Of three ways to the topics of a city those of two lookups are dropped, and then the last. -/
theorem retain_filters_plans_topics :
    ∃ tree, (ofIndexes cityTopicsIndexes (.requestCount : CostModel Rat) {}).plan cityTopicsQuery
        = .ok tree
      ∧ tree.arena.plans.length = 3
      ∧ ∃ left : Arena Rat, left = tree.arena.retain (·.steps.countP (·.isLookup) == 1)
        ∧ left.plans = tree.plans.filter (·.steps.countP (·.isLookup) == 1)
        ∧ left.plans.length = 1 ∧ left.IsWellFormed
        ∧ (left.retain fun _ => false).plans = []
        ∧ (left.retain fun _ => false).IsWellFormed := by
  have hplanned : ((ofIndexes cityTopicsIndexes (.requestCount : CostModel Rat) {}).plan
      cityTopicsQuery).toOption.any (fun tree => tree.plans.length == 3
        && (tree.plans.filter (·.steps.countP (·.isLookup) == 1)).length == 1) = true := by
    decide +kernel
  obtain ⟨tree, htree, hlengths⟩ := (Option.any_eq_true _ _).mp hplanned
  obtain ⟨hall, hone⟩ := (Bool.and_eq_true _ _).mp hlengths
  have hok := toOption_eq_some_iff.mp htree
  obtain ⟨htrees, harenas⟩ := retain_filters_plans
    (ofIndexes cityTopicsIndexes (.requestCount : CostModel Rat) {}) cityTopicsQuery
  obtain ⟨hleads, hplans, -⟩ := htrees tree (.inr hok)
  obtain ⟨hleft, hwell, hagain⟩ :=
    (harenas _ hleads).2 (·.steps.countP (·.isLookup) == 1)
  obtain ⟨hnone, hempty, -⟩ := (harenas _ hagain).2 fun _ => false
  rw [hplans] at hleft
  refine ⟨tree, hok, hplans ▸ eq_of_beq hall, _, rfl, hleft, hleft ▸ eq_of_beq hone, hwell, ?_,
    hempty⟩
  rw [hnone, List.filter_eq_nil_iff]
  exact fun plan _ => Bool.false_ne_true

end Planner

end IndexDesign
