import IndexDesign.Proofs.Plan.Lineage

/-! # Dropping plans from arenas

    Dropping plans marks nodes, numbers the marked ones anew and lists their
    children anew.  It comes to the arena of the branches that stay.

    * No way up from elsewhere leads through the node at which a branch begins.
      So that node is marked exactly where a plan of its branch stays.
    * The new number of a parent is known when its child is taken up, since
      parents come first.
    * Nodes are listed with their parents in the order of their numbers, which
      is the order in which branches lie beside each other. -/

namespace IndexDesign

variable {α : Type}

/-! ## Nodes that stay -/

namespace Forest

/-- A node at which a branch begins is marked exactly where a plan of the branch passes a test. -/
def MarkedBy (alive : Nat → Bool) (keep : Plan α → Bool) (first : Nat) (path : List (Step α)) :
    Forest α → Prop
  | empty => True
  | branch t onward beside =>
    alive first = ((branch t onward empty).plans path).any keep
      ∧ onward.MarkedBy alive keep (first + 1) (path ++ [t.step])
      ∧ beside.MarkedBy alive keep (first + 1 + onward.size) path

variable {a : Arena α} {keep : Plan α → Bool}

/-- The node at which a branch begins is marked exactly where a plan of the branch passes the test,
    as long as no way up from behind the branch leads through it. -/
theorem isAlive_eq_any_plans (hsome : a.isEmpty = false) (keep : Plan α → Bool) {t : Transition α}
    {onward : Forest α} {parent first : Nat} (hparent : parent < first)
    (hlies : (branch t onward empty).LiesIn a.nodes (some parent) first)
    (hbehind : ∀ id, first + 1 + onward.size ≤ id → first ∉ a.lineage id) :
    a.isAlive keep first = ((branch t onward empty).plans (a.stepsTo parent)).any keep := by
  rw [← (branch t onward empty).plansFrom_of_liesIn parent first hparent hlies, Arena.isAlive,
    beq_eq_false_iff_ne.mpr (by omega), Bool.false_or, Bool.eq_iff_iff, List.any_eq_true,
    List.any_eq_true, size, size]
  constructor
  · rintro ⟨leaf, hleaf, halive⟩
    obtain ⟨hkeep, hthrough⟩ := (Bool.and_eq_true _ _).mp halive
    obtain ⟨plan, hplan, hkept⟩ := (Option.any_eq_true _ _).mp hkeep
    have hthrough := List.contains_iff_mem.mp hthrough
    refine ⟨plan, Arena.mem_plansFrom.mpr ⟨leaf, a.le_of_mem_lineage leaf first hthrough, ?_,
      ((Arena.mem_leaves_iff hsome).mp hleaf).2, hplan⟩, hkept⟩
    by_contra hmore
    exact hbehind leaf (by omega) hthrough
  · rintro ⟨plan, hmem, hkept⟩
    obtain ⟨leaf, hge, hlt, hleaf, hplan⟩ := Arena.mem_plansFrom.mp hmem
    refine ⟨leaf, (Arena.mem_leaves_iff hsome).mpr ⟨by omega, hleaf⟩, ?_⟩
    rw [hplan, Option.any_some, hkept, Bool.true_and, List.contains_iff_mem]
    rcases Nat.eq_or_lt_of_le hge with rfl | hlater
    · exact a.self_mem_lineage first
    · obtain ⟨own, hown, -⟩ :=
        onward.lineage_of_liesIn first _ (by omega) hlies.2.1 leaf hlater (by omega)
      rw [hown]
      exact List.mem_append_right _ (a.self_mem_lineage first)

/-- **MARKS ARE WHAT THEY ARE FOR**, as long as no way up from behind the branches leads through
    them. -/
theorem markedBy_isAlive (hsome : a.isEmpty = false) (keep : Plan α → Bool) (f : Forest α) :
    ∀ parent first, parent < first → f.LiesIn a.nodes (some parent) first →
      (∀ id, first + f.size ≤ id → ∀ k ∈ a.lineage id, first ≤ k → first + f.size ≤ k) →
        f.MarkedBy (a.isAlive keep) keep first (a.stepsTo parent) := by
  induction f with
  | empty => intro parent first _ _ _; trivial
  | branch t onward beside ihOnward ihBeside =>
      intro parent first hparent hlies hbehind
      obtain ⟨hnode, honward, hbeside⟩ := hlies
      have hsteps : a.stepsTo first = a.stepsTo parent ++ [t.step] :=
        Arena.stepsTo_of_parent hnode rfl hparent
      rw [size] at hbehind
      -- the way up from beside the branch passes it by
      have haside : ∀ id, first + 1 + onward.size ≤ id → ∀ k ∈ a.lineage id, first ≤ k →
          first + 1 + onward.size ≤ k := by
        intro id hid k hk hle
        by_cases hwithin : id < first + 1 + onward.size + beside.size
        · obtain ⟨own, hown, hbound⟩ :=
            beside.lineage_of_liesIn parent _ (by omega) hbeside id hid hwithin
          rw [hown] at hk
          rcases List.mem_append.mp hk with hk | hk
          · exact hbound k hk
          · have habove := a.le_of_mem_lineage parent k hk
            omega
        · have h := hbehind id (by omega) k hk hle
          omega
      refine ⟨?_, ?_, ?_⟩
      · refine isAlive_eq_any_plans hsome keep hparent ⟨hnode, honward, trivial⟩ fun id hid hk => ?_
        have h := haside id hid first hk le_rfl
        omega
      · rw [← hsteps]
        exact ihOnward first (first + 1) (by omega) honward fun id hid k hk hle =>
          haside id hid k hk (by omega)
      · refine ihBeside parent (first + 1 + onward.size) (by omega) hbeside
          fun id hid k hk hle => ?_
        have h := hbehind id (by omega) k hk (by omega)
        omega

/-! ## Branches that stay -/

theorem plans_eq_nil_iff (f : Forest α) (path : List (Step α)) :
    f.plans path = [] ↔ f.isEmpty = true := by
  cases f with
  | empty => exact ⟨fun _ => rfl, fun _ => rfl⟩
  | branch t onward beside => rw [plans_eq _ path t, List.map_eq_nil_iff, runs_eq_nil_iff]

/-- Branches stay where one of their plans does. -/
theorem any_plans (f : Forest α) (path : List (Step α)) :
    (f.plans path).any keep = !(f.retain keep path).isEmpty := by
  rw [Bool.eq_iff_iff, Bool.not_eq_true', ← Bool.not_eq_true, ← plans_eq_nil_iff _ path,
    plans_retain, List.filter_eq_nil_iff, List.any_eq_true]
  push Not
  exact Iff.rfl

theorem plans_alone (t : Transition α) (onward : Forest α) (path : List (Step α)) :
    (branch t onward empty).plans path
      = if onward.isEmpty then [⟨path ++ [t.step], t.state⟩] else onward.plans (path ++ [t.step]) :=
  List.append_nil _

/-- Dropping plans keeps a branch where one of its plans stays. -/
theorem retain_branch (t : Transition α) (onward beside : Forest α) (path : List (Step α)) :
    (branch t onward beside).retain keep path
      = if ((branch t onward empty).plans path).any keep then
          branch t (onward.retain keep (path ++ [t.step])) (beside.retain keep path)
        else beside.retain keep path := by
  rw [retain, plans_alone, ← any_plans]
  cases onward with
  | empty => rw [isEmpty, if_pos rfl, if_pos rfl, List.any_cons, List.any_nil, Bool.or_false]
  | branch => rfl

/-- What goes on from a transition that is dropped is dropped. -/
theorem retain_onward_of_dropped {t : Transition α} {onward : Forest α} {path : List (Step α)}
    (h : ((branch t onward empty).plans path).any keep = false) :
    onward.retain keep (path ++ [t.step]) = empty := by
  rw [plans_alone] at h
  by_cases hempty : onward.isEmpty = true
  · rw [isEmpty_iff.mp hempty]
    rfl
  · rw [if_neg hempty, any_plans, Bool.not_eq_false'] at h
    exact isEmpty_iff.mp h

/-- What goes on from a transition that is kept still goes on where it did. -/
theorem isEmpty_retain_onward_of_kept {t : Transition α} {onward : Forest α}
    {path : List (Step α)} (h : ((branch t onward empty).plans path).any keep = true) :
    (onward.retain keep (path ++ [t.step])).isEmpty = onward.isEmpty := by
  cases hempty : onward.isEmpty with
  | true =>
      rw [isEmpty_iff.mp hempty]
      rfl
  | false =>
      rw [plans_alone, hempty, if_neg Bool.false_ne_true, any_plans] at h
      exact Bool.not_eq_true' _ |>.mp h

/-! ## Taking nodes up -/

/-- The nodes of branches without their children. -/
def bare (parent : Option Nat) (first : Nat) : Forest α → List (ArenaNode α)
  | empty => []
  | branch t onward beside =>
    ⟨t, parent, []⟩ ::
      (onward.bare (some first) (first + 1) ++ beside.bare parent (first + 1 + onward.size))

@[simp] theorem length_bare (f : Forest α) : ∀ parent first,
    (f.bare parent first).length = f.size := by
  induction f with
  | empty => intro parent first; rfl
  | branch t onward beside ihOnward ihBeside =>
      intro parent first
      rw [bare, List.length_cons, List.length_append, ihOnward, ihBeside, size]
      omega

end Forest

namespace Arena

variable {alive : Nat → Bool}

theorem takeUp_of_alive {numbers : List (Option Nat)} {nodes : List (ArenaNode α)}
    (h : alive numbers.length = true) (n : ArenaNode α) : takeUp alive (numbers, nodes) n
      = (numbers ++ [some nodes.length],
        nodes ++ [⟨n.transition, renumber numbers n.parent, []⟩]) :=
  if_pos h

theorem takeUp_of_dead {numbers : List (Option Nat)} {nodes : List (ArenaNode α)}
    (h : alive numbers.length = false) (n : ArenaNode α) :
    takeUp alive (numbers, nodes) n = (numbers ++ [none], nodes) :=
  if_neg (Bool.eq_false_iff.mp h)

/-- Every node gets its new number, or none, behind those of the nodes before. -/
theorem exists_numbers (alive : Nat → Bool) (nodes : List (ArenaNode α)) :
    ∀ taken : List (Option Nat) × List (ArenaNode α), ∃ more, more.length = nodes.length
      ∧ (nodes.foldl (takeUp alive) taken).1 = taken.1 ++ more := by
  induction nodes with
  | nil => intro taken; exact ⟨[], rfl, (List.append_nil _).symm⟩
  | cons n nodes ih =>
      intro taken
      obtain ⟨more, hlength, hmore⟩ := ih (takeUp alive taken n)
      rw [List.foldl_cons, hmore]
      cases halive : alive taken.1.length with
      | true =>
          refine ⟨some taken.2.length :: more, congrArg (· + 1) hlength, ?_⟩
          rw [takeUp_of_alive halive, List.append_assoc, List.singleton_append]
      | false =>
          refine ⟨none :: more, congrArg (· + 1) hlength, ?_⟩
          rw [takeUp_of_dead halive, List.append_assoc, List.singleton_append]

/-- Numbers that are given do not change. -/
theorem renumber_append {numbers : List (Option Nat)} {parent : Option Nat}
    (h : ∀ p ∈ parent, p < numbers.length) (more : List (Option Nat)) :
    renumber (numbers ++ more) parent = renumber numbers parent := by
  cases parent with
  | none => rfl
  | some p =>
      rw [renumber, renumber, Option.bind_some, Option.bind_some,
        List.getElem?_append_left (h p rfl)]

end Arena

namespace Forest

/-- **NODES ARE NUMBERED ANEW**: of the nodes of branches, those of the branches that stay are
    taken up, beneath the new number of what the branches hang from. -/
theorem nodes_foldl_takeUp {alive : Nat → Bool} {keep : Plan α → Bool} (f : Forest α) :
    ∀ parent path (numbers : List (Option Nat)) (nodes : List (ArenaNode α)),
      (∀ p ∈ parent, p < numbers.length) → f.MarkedBy alive keep numbers.length path →
        ((f.cells parent numbers.length).foldl (Arena.takeUp alive) (numbers, nodes)).2
          = nodes ++ (f.retain keep path).bare (Arena.renumber numbers parent) nodes.length := by
  induction f with
  | empty => intro parent path numbers nodes _ _; exact (List.append_nil nodes).symm
  | branch t onward beside ihOnward ihBeside =>
      intro parent path numbers nodes hparent hmarked
      obtain ⟨halive, honward, hbeside⟩ := hmarked
      rw [retain_branch, cells, List.foldl_cons, List.foldl_append, ← halive]
      -- whatever the new number of the transition, what is behind it is taken up beneath that
      have hlater : ∀ (number : Option Nat) (before : List (ArenaNode α)),
          ((beside.cells parent (numbers.length + 1 + onward.size)).foldl (Arena.takeUp alive)
            ((onward.cells (some numbers.length) (numbers.length + 1)).foldl (Arena.takeUp alive)
              (numbers ++ [number], before))).2
          = before ++ (onward.retain keep (path ++ [t.step])).bare number before.length
            ++ (beside.retain keep path).bare (Arena.renumber numbers parent)
              (before.length + (onward.retain keep (path ++ [t.step])).size) := by
        intro number before
        have hlength : (numbers ++ [number]).length = numbers.length + 1 := List.length_append
        have hnumber : Arena.renumber (numbers ++ [number]) (some numbers.length) = number := by
          rw [Arena.renumber, Option.bind_some, List.getElem?_concat_length]
          rfl
        have hnodes := ihOnward (some numbers.length) (path ++ [t.step]) (numbers ++ [number])
          before (by rintro p ⟨⟩; omega) (by rwa [hlength])
        obtain ⟨more, hmore, hnumbers⟩ := Arena.exists_numbers alive
          (onward.cells (some numbers.length) (numbers.length + 1)) (numbers ++ [number], before)
        rw [hlength, hnumber] at hnodes
        rw [length_cells] at hmore
        generalize (onward.cells (some numbers.length) (numbers.length + 1)).foldl
          (Arena.takeUp alive) (numbers ++ [number], before) = taken at hnodes hnumbers ⊢
        obtain ⟨given, nodes⟩ := taken
        dsimp only at hnodes hnumbers
        subst hnodes hnumbers
        have hgiven : (numbers ++ [number] ++ more).length = numbers.length + 1 + onward.size := by
          rw [List.length_append, hlength, hmore]
        have hrest := ihBeside parent path (numbers ++ [number] ++ more)
          (before ++ (onward.retain keep (path ++ [t.step])).bare number before.length)
          (fun p hp => by have h := hparent p hp; omega) (by rwa [hgiven])
        rw [hgiven, List.append_assoc numbers, Arena.renumber_append hparent] at hrest
        rw [List.append_assoc numbers, hrest, List.length_append, length_bare]
      cases hmark : alive numbers.length with
      | true =>
          rw [Arena.takeUp_of_alive hmark, hlater, if_pos rfl, bare, List.length_append,
            List.length_singleton, List.append_assoc, List.append_assoc, List.singleton_append]
      | false =>
          rw [Arena.takeUp_of_dead hmark, hlater, if_neg Bool.false_ne_true,
            retain_onward_of_dropped (halive.symm.trans hmark), bare, List.append_nil, size,
            Nat.add_zero]

end Forest

/-! ## Listing children -/

section Modify

variable {β : Type} {f : β → β}

theorem modify_append_left {xs : List β} (ys : List β) {i : Nat} (h : i < xs.length) :
    (xs ++ ys).modify i f = xs.modify i f ++ ys := by
  rw [List.modify_eq_take_drop, List.modify_eq_take_drop, List.take_append_of_le_length h.le,
    List.drop_append_of_le_length h.le, List.append_assoc]
  congr 1
  cases hdrop : xs.drop i with
  | nil => exact absurd (List.drop_eq_nil_iff.mp hdrop) (not_le.mpr h)
  | cons x rest => rfl

theorem modify_at_length (xs : List β) (y : β) (ys : List β) :
    (xs ++ y :: ys).modify xs.length f = xs ++ f y :: ys := by
  rw [List.modify_eq_take_drop, List.take_left, List.drop_left]
  rfl

end Modify

/-- The node with more children. -/
def ArenaNode.adopting (ids : List Nat) (n : ArenaNode α) : ArenaNode α :=
  { n with children := n.children ++ ids }

theorem ArenaNode.adopting_comp (ids more : List Nat) :
    (adopting more : ArenaNode α → ArenaNode α) ∘ adopting ids = adopting (ids ++ more) := by
  funext n
  exact congrArg (ArenaNode.mk n.transition n.parent) (List.append_assoc n.children ids more)

theorem Arena.adopt_of_parent {nodes : List (ArenaNode α)} {id p : Nat} {n : ArenaNode α}
    (hn : nodes[id]? = some n) (hp : n.parent = some p) :
    adopt nodes id = nodes.modify p (ArenaNode.adopting [id]) := by
  rw [adopt, hn, Option.bind_some, hp]
  rfl

namespace Arena

/-- Nodes with branches behind them, which hang from the one of a number. -/
def withBranches (nodes : List (ArenaNode α)) (id : Nat) (f : Forest α) : List (ArenaNode α) :=
  nodes.modify id (ArenaNode.adopting (f.roots nodes.length)) ++ f.cells (some id) nodes.length

theorem withBranches_empty (nodes : List (ArenaNode α)) (p : Nat) :
    withBranches nodes p .empty = nodes := by
  have hnone : (ArenaNode.adopting [] : ArenaNode α → ArenaNode α) = id := by
    funext n
    exact congrArg (ArenaNode.mk n.transition n.parent) (List.append_nil n.children)
  rw [withBranches, Forest.roots, Forest.cells, hnone, List.modify_id, List.append_nil]

/-- Branches that hang from the last node follow upon it. -/
theorem withBranches_concat (nodes : List (ArenaNode α)) (t : Transition α) (parent : Option Nat)
    (f : Forest α) : withBranches (nodes ++ [⟨t, parent, []⟩]) nodes.length f
      = nodes ++ ⟨t, parent, f.roots (nodes.length + 1)⟩
        :: f.cells (some nodes.length) (nodes.length + 1) := by
  rw [withBranches, List.length_append, List.length_singleton, modify_at_length, List.append_assoc,
    List.singleton_append]
  rfl

/-- Branches are hung on one after the other. -/
theorem withBranches_branch {nodes : List (ArenaNode α)} {id : Nat} (h : id < nodes.length)
    (t : Transition α) (onward beside : Forest α) :
    withBranches nodes id (.branch t onward beside)
      = withBranches (nodes.modify id (ArenaNode.adopting [nodes.length])
        ++ ⟨t, some id, onward.roots (nodes.length + 1)⟩
          :: onward.cells (some nodes.length) (nodes.length + 1)) id beside := by
  have hlisted : (nodes.modify id (ArenaNode.adopting [nodes.length])).length = nodes.length :=
    List.length_modify _ _ _
  rw [withBranches, withBranches, modify_append_left _ (by rwa [hlisted]),
    List.modify_modify_eq, ArenaNode.adopting_comp, List.length_append, List.length_cons, hlisted,
    Forest.length_cells, Forest.roots, Forest.cells, List.append_assoc, List.cons_append,
    Nat.add_comm onward.size, ← Nat.add_assoc]
  rfl

/-- A leaf stays one where no branches are hung from it. -/
theorem all_isLeaf_withBranches {nodes : List (ArenaNode α)} {id : Nat} {n : ArenaNode α}
    (hn : nodes[id]? = some n) (hleaf : n.isLeaf = true) (f : Forest α) :
    (withBranches nodes id f)[id]?.all (·.isLeaf) = f.isEmpty := by
  have hid : id < nodes.length := (List.getElem?_eq_some_iff.mp hn).1
  rw [withBranches, List.getElem?_append_left (by rwa [List.length_modify]),
    List.getElem?_modify_eq, hn, Option.map_eq_map, Option.map_some, Option.all_some,
    ArenaNode.isLeaf, ArenaNode.adopting, List.isEmpty_iff.mp hleaf, List.nil_append,
    Forest.isEmpty_roots]

end Arena

namespace Forest

/-- **CHILDREN ARE LISTED ANEW**: going through the nodes of branches hangs these on. -/
theorem foldl_adopt (f : Forest α) : ∀ parent (before after : List (ArenaNode α)),
    parent < before.length → (List.range' before.length f.size).foldl Arena.adopt
        (before ++ (f.bare (some parent) before.length ++ after))
      = Arena.withBranches before parent f ++ after := by
  induction f with
  | empty =>
      intro parent before after _
      rw [Arena.withBranches_empty]
      rfl
  | branch t onward beside ihOnward ihBeside =>
      intro parent before after hparent
      have hnumbers : List.range' before.length (branch t onward beside).size
          = before.length :: (List.range' (before.length + 1) onward.size
            ++ List.range' (before.length + 1 + onward.size) beside.size) := by
        rw [List.range'_append_1, size, Nat.add_assoc, Nat.add_comm 1, List.range'_succ]
      have hnode : (before ++ ((branch t onward beside).bare (some parent) before.length
          ++ after))[before.length]? = some ⟨t, some parent, []⟩ := by
        rw [bare, List.getElem?_append_right le_rfl, Nat.sub_self]
        rfl
      have hlisted : (before.modify parent (ArenaNode.adopting [before.length])).length
          = before.length := List.length_modify _ _ _
      rw [hnumbers, List.foldl_cons, List.foldl_append, Arena.adopt_of_parent hnode rfl,
        modify_append_left _ hparent, Arena.withBranches_branch hparent, bare]
      -- once the transition is listed, so is what goes on from it, and then what lies beside it
      generalize before.modify parent (ArenaNode.adopting [before.length]) = listed at hlisted ⊢
      rw [← hlisted] at hparent ⊢
      have hone : (listed ++ [(⟨t, some parent, []⟩ : ArenaNode α)]).length = listed.length + 1 :=
        List.length_append
      have honward := ihOnward listed.length (listed ++ [⟨t, some parent, []⟩])
        (beside.bare (some parent) (listed.length + 1 + onward.size) ++ after) (by omega)
      have hboth : (listed ++ ⟨t, some parent, onward.roots (listed.length + 1)⟩ ::
          onward.cells (some listed.length) (listed.length + 1)).length
            = listed.length + 1 + onward.size := by
        rw [List.length_append, List.length_cons, length_cells, Nat.add_assoc, Nat.add_comm 1]
      have hbeside := ihBeside parent
        (listed ++ ⟨t, some parent, onward.roots (listed.length + 1)⟩ ::
          onward.cells (some listed.length) (listed.length + 1)) after (by omega)
      rw [hone, Arena.withBranches_concat, List.append_assoc, List.singleton_append] at honward
      rw [hboth] at hbeside
      rw [List.cons_append, List.append_assoc, honward, hbeside]

end Forest

namespace PlanTree

/-- No way leads up from behind the arena of a tree. -/
theorem lineage_of_ge (t : PlanTree α) {id : Nat} (h : 1 + t.branches.size ≤ id) :
    t.arena.lineage id = [id] := by
  refine Arena.lineage_of_none ?_
  rw [List.getElem?_eq_none (by rw [t.length_arena]; omega), Option.bind_none]

/-- **DROPPING PLANS FROM THE ARENA OF A TREE** comes to dropping them from the tree. -/
theorem retain_arena (t : PlanTree α) (keep : Plan α → Bool) :
    (t.retain keep).arena = t.arena.retain keep := by
  have hmarked : t.branches.MarkedBy (t.arena.isAlive keep) keep 1 [] := by
    cases hempty : t.isEmpty with
    | true =>
        rw [Forest.isEmpty_iff.mp hempty]
        trivial
    | false =>
        have h := Forest.markedBy_isAlive (t.isEmpty_arena.trans hempty) keep t.branches 0 1
          Nat.one_pos t.liesIn_arena fun id hid k hk _ => by
            rw [t.lineage_of_ge hid] at hk
            exact (List.mem_singleton.mp hk).symm ▸ hid
        rwa [t.stepsTo_root] at h
  have htaken : (t.arena.nodes.foldl (Arena.takeUp (t.arena.isAlive keep)) ([], [])).2
      = [⟨t.root, none, []⟩] ++ (t.retain keep).branches.bare (some 0) 1 := by
    rw [t.arena_nodes, List.foldl_cons]
    exact t.branches.nodes_foldl_takeUp (some 0) [] [some 0] [⟨t.root, none, []⟩]
      (fun p hp => by cases hp; exact Nat.one_pos) hmarked
  have hlisted := (t.retain keep).branches.foldl_adopt 0 [⟨t.root, none, []⟩] [] Nat.one_pos
  rw [List.append_nil, List.append_nil] at hlisted
  rw [Arena.retain, htaken, List.length_append, Forest.length_bare, List.length_singleton,
    Nat.add_sub_cancel_left]
  exact congrArg Arena.mk ((t.retain keep).arena_nodes.trans hlisted.symm)

end PlanTree

end IndexDesign
