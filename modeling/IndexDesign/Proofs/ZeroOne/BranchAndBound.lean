import IndexDesign.Proofs.ZeroOne.Bound
import IndexDesign.Proofs.ZeroOne.Propagation
import IndexDesign.Proofs.ZeroOne.Scope
import IndexDesign.ZeroOne.BranchAndBound

/-! # Branch and bound is exact

    Every solution of a program is accounted for all through the search: it
    completes a node that is still on the stack, or the best assignment so far
    is no worse by more than the tolerance.  Each visit keeps that:

    * a dropped node has no completion that improves on the best;
    * an assignment that improves on the best takes over what that accounts
      for, since the best only ever falls;
    * the two children of a node share its completions between them.

    When the stack is empty, only the best assignment is left to account for
    the solutions.  A node with `f` free variables has at most
    `2 ^ (f + 1) - 1` nodes below it, itself included, which bounds the visits
    of the whole search. -/

namespace IndexDesign.ZeroOne

namespace Program

variable {m : Program Rat} {best : Option (Assignment Rat)} {node p : Partial}
  {values : Array Bool}

/-! ## The variable to branch on -/

theorem mem_of_firstLeast {β : Type} {measure : β → Rat} {xs : List β} {y : β}
    (h : Scalar.firstLeast measure xs = some y) : y ∈ xs := by
  -- the fold keeps its start or takes over an element, whatever the start is
  have hfold : ∀ (zs : List β) (z : β),
      zs.foldl (fun best y => if Scalar.totalLE (measure best) (measure y) then best else y) z
        ∈ z :: zs := by
    intro zs
    induction zs with
    | nil => intro z; exact List.mem_cons_self ..
    | cons w zs ih =>
        intro z
        rw [List.foldl_cons]
        split
        · rcases List.mem_cons.mp (ih z) with heq | hmem
          · rw [heq]
            exact List.mem_cons_self ..
          · exact List.mem_cons_of_mem _ (List.mem_cons_of_mem _ hmem)
        · exact List.mem_cons_of_mem _ (ih w)
  cases xs with
  | nil => exact nomatch h
  | cons x xs =>
      rw [← Option.some.inj h]
      exact hfold xs x

/-- Where no variable is left to branch on, every variable is assigned. -/
theorem isFree_eq_false_of_branch (h : m.branch? m.partitions p = none) {v : Nat}
    (hv : v < p.size) : p.isFree v = false := by
  unfold branch? at h
  dsimp only at h
  split at h
  · exact nomatch h
  · have hidx : p.findIdx? (·.isNone) = none := Option.map_eq_none_iff.mp h
    have hall := Array.findIdx?_eq_none_iff.mp hidx p[v] (Array.getElem_mem hv)
    rwa [Partial.isFree, Partial.value_eq_getElem hv]

/-- The variable to branch on is a free one of a partition, or the first free one of all; this is
    tried true first where that lowers the objective. -/
theorem branch_cases {partitions : List (Constraint Rat)} {v : Nat} {b : Bool}
    (h : m.branch? partitions p = some (v, b)) :
    (∃ c ∈ partitions, v ∈ c.freeVariables p)
      ∨ (v < p.size ∧ p.isFree v = true ∧ b = decide (m.objective v < 0)) := by
  unfold branch? at h
  dsimp only at h
  split at h
  · next w hw =>
    have hvw : w = v := congrArg Prod.fst (Option.some.inj h)
    subst hvw
    obtain ⟨c, hc, hcw⟩ := List.exists_of_findSome?_eq_some hw
    split at hcw
    · exact nomatch hcw
    · exact .inl ⟨c, hc, mem_of_firstLeast hcw⟩
  · obtain ⟨w, hw, heq⟩ := Option.map_eq_some_iff.mp h
    have hvw : w = v := congrArg Prod.fst heq
    subst hvw
    obtain ⟨hlt, hnone, -⟩ := Array.findIdx?_eq_some_iff_getElem.mp hw
    refine .inr ⟨hlt, ?_, ?_⟩
    · rwa [Partial.isFree, Partial.value_eq_getElem hlt]
    · rw [← Scalar.zero_rat]
      exact (congrArg Prod.snd heq).symm

/-- The variable to branch on is free. -/
theorem isFree_of_branch {partitions : List (Constraint Rat)} {v : Nat} {b : Bool}
    (h : m.branch? partitions p = some (v, b)) : p.isFree v = true := by
  rcases branch_cases h with ⟨c, -, hv⟩ | ⟨-, hfree, -⟩
  · exact (Constraint.mem_freeVariables.mp hv).2
  · exact hfree

/-- The variable to branch on is one of the program's. -/
theorem lt_size_of_branch (hscope : m.InScope) (hsize : p.size = m.vars.size) {v : Nat} {b : Bool}
    (h : m.branch? m.partitions p = some (v, b)) : v < m.vars.size := by
  rcases branch_cases h with ⟨c, hc, hv⟩ | ⟨hlt, -, -⟩
  · obtain ⟨t, ht, rfl⟩ := List.mem_map.mp (Constraint.mem_freeVariables.mp hv).1
    exact hscope c (of_mem_disjointPartitions m.constraints [] hc).1 t ht
  · exact hsize ▸ hlt

/-! ## One visit -/

/-- The only completion of an assignment of all variables is its total reading. -/
theorem eq_total_of_completes (h : p.Completes values)
    (hall : ∀ v, v < p.size → p.isFree v = false) : values = p.total := by
  refine Array.ext (by rw [Partial.total, Array.size_map, h.size_eq]) ?_
  intro v hv hv'
  have hp : v < p.size := h.size_eq ▸ hv
  have hvalue : p.value v = p[v] := Partial.value_eq_getElem hp
  have htotal : p.total[v] = (p[v]).getD false := Array.getElem_map ..
  have hassigned := hall v hp
  rw [Partial.isFree, hvalue] at hassigned
  cases hb : p[v] with
  | none => rw [hb] at hassigned; exact absurd hassigned.symm Bool.false_ne_true
  | some b =>
      have hagree := h.agrees v b (hvalue.trans hb)
      rw [Array.getD_eq_getD_getElem?, Array.getElem?_eq_getElem hv] at hagree
      rw [htotal, hb]
      exact hagree

/-- The objective is no better than the best so far by more than the tolerance. -/
def IsMatched (best : Option (Assignment Rat)) (objective : Rat) : Prop :=
  ∃ b, best = some b ∧ b.objective - Scalar.tolerance ≤ objective

theorem isMatched_of_isPruned {bound : Rat} (h : isPruned best bound = true) :
    IsMatched best bound := by
  cases best with
  | none => exact nomatch h
  | some b => exact ⟨b, rfl, of_decide_eq_true h⟩

theorem isMatched_of_not_improves {x : Rat} (h : ¬ improves best x = true) :
    IsMatched best x := by
  cases best with
  | none => exact absurd rfl h
  | some b => exact ⟨b, rfl, not_lt.mp fun hlt => h (decide_eq_true hlt)⟩

/-- What the best so far matches, an assignment that improves on it matches too. -/
theorem IsMatched.of_improves {x : Rat} {found : Assignment Rat} (h : IsMatched best x)
    (himproves : improves best found.objective = true) : IsMatched (some found) x := by
  obtain ⟨b, rfl, hle⟩ := h
  have hlt : found.objective < b.objective - Scalar.tolerance := of_decide_eq_true himproves
  exact ⟨found, rfl, by linarith [Scalar.tolerance_pos]⟩

/-- A dropped node has no completion that improves on the best. -/
theorem isMatched_of_dropped (h : m.visit m.partitions best node = .dropped)
    (hnode : node.Completes values) (hvalues : m.isFeasible values = true) :
    IsMatched best (m.objectiveValue values) := by
  obtain ⟨p, hp, hcomp⟩ := m.exists_propagate node hnode (isSatisfied_of_isFeasible hvalues)
  unfold visit at h
  rw [hp] at h
  dsimp only at h
  by_cases hpruned : isPruned best (m.lowerBound m.partitions p) = true
  -- its bound is below every completion
  · obtain ⟨b, hb, hle⟩ := isMatched_of_isPruned hpruned
    exact ⟨b, hb, le_trans hle (lowerBound_le hcomp hvalues)⟩
  · rw [if_neg hpruned] at h
    cases hbranch : m.branch? m.partitions p with
    | some vb => rw [hbranch] at h; exact nomatch h
    | none =>
        rw [hbranch] at h
        dsimp only at h
        -- nothing is left to branch on: the node has one completion, and it was looked at
        have htotal : values = p.total :=
          eq_total_of_completes hcomp fun v hv => isFree_eq_false_of_branch hbranch hv
        rw [← htotal, hvalues, Bool.true_and] at h
        by_cases himproves : improves best (m.objectiveValue values) = true
        · rw [if_pos himproves] at h
          exact nomatch h
        · exact isMatched_of_not_improves himproves

/-- An assignment that a visit finds is a solution with its objective, improves on the best and
    completes the node, which no other solution does. -/
theorem spec_of_improved {found : Assignment Rat}
    (h : m.visit m.partitions best node = .improved found) :
    m.isFeasible found.values = true ∧ found.objective = m.objectiveValue found.values
      ∧ improves best found.objective = true ∧ node.Completes found.values
      ∧ ∀ values, node.Completes values → m.isFeasible values = true → values = found.values := by
  unfold visit at h
  cases hp : m.propagate node with
  | none => rw [hp] at h; exact nomatch h
  | some p =>
      rw [hp] at h
      dsimp only at h
      split at h
      · exact nomatch h
      · cases hbranch : m.branch? m.partitions p with
        | some vb => rw [hbranch] at h; exact nomatch h
        | none =>
            rw [hbranch] at h
            dsimp only at h
            split at h
            · next hcond =>
              obtain ⟨hfeasible, himproves⟩ := (Bool.and_eq_true _ _).mp hcond
              have hfound : ⟨p.total, m.objectiveValue p.total⟩ = found := Visit.improved.inj h
              subst hfound
              refine ⟨hfeasible, rfl, himproves,
                p.completes_total.of_extends (m.extends_propagate node p hp), ?_⟩
              intro values hnode hvalues
              exact eq_total_of_completes (completes_of_propagate hp hnode hvalues)
                fun v hv => isFree_eq_false_of_branch hbranch hv
            · exact nomatch h

/-- The children of a node assign one more variable after propagation, one way each. -/
theorem exists_of_split {first second : Partial}
    (h : m.visit m.partitions best node = .split first second) :
    ∃ p v b, m.propagate node = some p ∧ m.branch? m.partitions p = some (v, b)
      ∧ first = p.assign v b ∧ second = p.assign v !b := by
  unfold visit at h
  cases hp : m.propagate node with
  | none => rw [hp] at h; exact nomatch h
  | some p =>
      rw [hp] at h
      dsimp only at h
      split at h
      · exact nomatch h
      · cases hbranch : m.branch? m.partitions p with
        | none =>
            rw [hbranch] at h
            dsimp only at h
            split at h
            · exact nomatch h
            · exact nomatch h
        | some vb =>
            obtain ⟨v, b⟩ := vb
            rw [hbranch] at h
            obtain ⟨hfirst, hsecond⟩ := Visit.split.inj h
            exact ⟨p, v, b, rfl, hbranch, hfirst.symm, hsecond.symm⟩

/-- The children of a node share its solutions between them. -/
theorem completes_of_split {first second : Partial}
    (h : m.visit m.partitions best node = .split first second) (hnode : node.Completes values)
    (hvalues : m.isFeasible values = true) :
    first.Completes values ∨ second.Completes values := by
  obtain ⟨p, v, b, hp, -, rfl, rfl⟩ := exists_of_split h
  -- a completion goes to the child that assigns the variable its own value
  have hv := (completes_of_propagate hp hnode hvalues).assign v
  cases hb : values.getD v false == b with
  | true =>
      rw [eq_of_beq hb] at hv
      exact .inl hv
  | false =>
      have hnot : values.getD v false = !b := Bool.eq_not.mpr (ne_of_beq_false hb)
      rw [hnot] at hv
      exact .inr hv

/-! ## The whole search -/

/-- The best assignment is a solution with its objective. -/
def IsSound (m : Program Rat) (best : Option (Assignment Rat)) : Prop :=
  ∀ b, best = some b → m.isFeasible b.values = true ∧ b.objective = m.objectiveValue b.values

/-- Every solution completes a node of the stack or is matched by the best. -/
def AccountsFor (m : Program Rat) (stack : List Partial) (best : Option (Assignment Rat)) :
    Prop :=
  ∀ values, m.isFeasible values = true →
    (∃ node ∈ stack, node.Completes values) ∨ IsMatched best (m.objectiveValue values)

/-- The search ends with a sound best assignment. -/
theorem isSound_explore (m : Program Rat) (allowance : Nat) (stack : List Partial) :
    ∀ best, m.IsSound best → m.IsSound (m.explore m.partitions allowance stack best).best := by
  intro best
  fun_induction explore m m.partitions allowance stack best with
  | case1 => exact id
  | case2 => exact id
  | case3 allowance node stack best hvisit ih => exact ih
  | case4 allowance node stack best found hvisit ih =>
      intro _
      refine ih ?_
      intro b hb
      obtain ⟨hfeasible, hobjective, -, -⟩ := spec_of_improved hvisit
      rw [← Option.some.inj hb]
      exact ⟨hfeasible, hobjective⟩
  | case5 allowance node stack best first second hvisit ih => exact ih

/-- **ONE VISIT KEEPS ACCOUNT** of every solution: stated for what the visit leads to. -/
theorem accountsFor_visit {stack : List Partial} (h : m.AccountsFor (node :: stack) best) :
    match m.visit m.partitions best node with
    | .dropped => m.AccountsFor stack best
    | .improved found => m.AccountsFor stack (some found)
    | .split first second => m.AccountsFor (first :: second :: stack) best := by
  cases hvisit : m.visit m.partitions best node with
  | dropped =>
      intro values hvalues
      rcases h values hvalues with ⟨n, hn, hcomp⟩ | hmatched
      · rcases List.mem_cons.mp hn with rfl | hn
        · exact .inr (isMatched_of_dropped hvisit hcomp hvalues)
        · exact .inl ⟨n, hn, hcomp⟩
      · exact .inr hmatched
  | improved found =>
      intro values hvalues
      obtain ⟨-, hobjective, himproves, -, honly⟩ := spec_of_improved hvisit
      rcases h values hvalues with ⟨n, hn, hcomp⟩ | hmatched
      · rcases List.mem_cons.mp hn with rfl | hn
        -- the only solution that completes the node is the one found
        · refine .inr ⟨found, rfl, ?_⟩
          rw [honly values hcomp hvalues, ← hobjective]
          linarith [Scalar.tolerance_pos]
        · exact .inl ⟨n, hn, hcomp⟩
      · exact .inr (hmatched.of_improves himproves)
  | split first second =>
      intro values hvalues
      rcases h values hvalues with ⟨n, hn, hcomp⟩ | hmatched
      · rcases List.mem_cons.mp hn with rfl | hn
        · rcases completes_of_split hvisit hcomp hvalues with hfirst | hsecond
          · exact .inl ⟨first, by simp, hfirst⟩
          · exact .inl ⟨second, by simp, hsecond⟩
        · exact .inl ⟨n, by simp [hn], hcomp⟩
      · exact .inr hmatched

/-- A search that is not cut off ends with a best assignment that matches every solution. -/
theorem isMatched_explore (m : Program Rat) (allowance : Nat) (stack : List Partial) :
    ∀ best, m.AccountsFor stack best →
      (m.explore m.partitions allowance stack best).limited = false →
      ∀ values, m.isFeasible values = true →
        IsMatched (m.explore m.partitions allowance stack best).best
          (m.objectiveValue values) := by
  intro best
  fun_induction explore m m.partitions allowance stack best with
  | case1 allowance best =>
      intro h _ values hvalues
      rcases h values hvalues with ⟨n, hn, -⟩ | hmatched
      · exact nomatch hn
      · exact hmatched
  -- the allowance is used up, which the hypothesis excludes
  | case2 => intro _ hlimited; exact nomatch hlimited
  | case3 allowance node stack best hvisit ih =>
      intro h
      have hnext := accountsFor_visit h
      rw [hvisit] at hnext
      exact ih hnext
  | case4 allowance node stack best found hvisit ih =>
      intro h
      have hnext := accountsFor_visit h
      rw [hvisit] at hnext
      exact ih hnext
  | case5 allowance node stack best first second hvisit ih =>
      intro h
      have hnext := accountsFor_visit h
      rw [hvisit] at hnext
      exact ih hnext

/-! ## The number of visits -/

/-- A bound on the nodes of the search below a node, itself included. -/
def nodesBelow (p : Partial) : Nat := 2 ^ (p.freeCount + 1) - 1

/-- A bound on the nodes of the search below the nodes of a stack. -/
def nodesBelowAll (stack : List Partial) : Nat := (stack.map nodesBelow).sum

theorem nodesBelow_pos (p : Partial) : 0 < nodesBelow p := by
  have h : 2 ≤ 2 ^ (p.freeCount + 1) := by
    rw [Nat.pow_succ]
    exact Nat.le_mul_of_pos_left 2 (Nat.two_pow_pos _)
  unfold nodesBelow
  omega

/-- Two children have fewer nodes below them than their parent. -/
theorem nodesBelow_split (hscope : m.InScope) (hsize : node.size = m.vars.size)
    {first second : Partial} (h : m.visit m.partitions best node = .split first second) :
    first.size = m.vars.size ∧ second.size = m.vars.size
      ∧ nodesBelow first + nodesBelow second < nodesBelow node := by
  obtain ⟨p, v, b, hp, hbranch, rfl, rfl⟩ := exists_of_split h
  have hextends := m.extends_propagate node p hp
  have hpsize : p.size = m.vars.size := hextends.size_eq.symm.trans hsize
  have hfree := isFree_of_branch hbranch
  have hlt := lt_size_of_branch hscope hpsize hbranch
  refine ⟨(p.size_assign v b).trans hpsize, (p.size_assign v _).trans hpsize, ?_⟩
  have hfirst := Partial.freeCount_assign b (hpsize ▸ hlt) hfree
  have hsecond := Partial.freeCount_assign (!b) (hpsize ▸ hlt) hfree
  -- twice `2 ^ f - 1` is below `2 ^ (f + 1) - 1`, where `f` variables are free after propagation
  have hpow : 2 ^ (p.freeCount + 1) ≤ 2 ^ (node.freeCount + 1) :=
    Nat.pow_le_pow_right (by decide) (Nat.succ_le_succ hextends.freeCount_le)
  have hpos : 0 < 2 ^ p.freeCount := Nat.two_pow_pos _
  unfold nodesBelow
  rw [hfirst, hsecond]
  rw [Nat.pow_succ] at hpow
  omega

/-- A search that may visit all nodes below its stack is not cut off. -/
theorem limited_explore (hscope : m.InScope) (allowance : Nat) (stack : List Partial) :
    ∀ best, (∀ node ∈ stack, node.size = m.vars.size) → nodesBelowAll stack ≤ allowance →
      (m.explore m.partitions allowance stack best).limited = false := by
  intro best
  fun_induction explore m m.partitions allowance stack best with
  | case1 => intro _ _; rfl
  | case2 node stack best =>
      intro _ hle
      have hpos := nodesBelow_pos node
      rw [nodesBelowAll, List.map_cons, List.sum_cons] at hle
      omega
  | case3 allowance node stack best hvisit ih =>
      intro hsize hle
      have hpos := nodesBelow_pos node
      rw [nodesBelowAll, List.map_cons, List.sum_cons] at hle
      refine ih (fun n hn => hsize n (List.mem_cons_of_mem _ hn)) ?_
      unfold nodesBelowAll
      omega
  | case4 allowance node stack best found hvisit ih =>
      intro hsize hle
      have hpos := nodesBelow_pos node
      rw [nodesBelowAll, List.map_cons, List.sum_cons] at hle
      refine ih (fun n hn => hsize n (List.mem_cons_of_mem _ hn)) ?_
      unfold nodesBelowAll
      omega
  | case5 allowance node stack best first second hvisit ih =>
      intro hsize hle
      obtain ⟨hfirst, hsecond, hlt⟩ :=
        nodesBelow_split hscope (hsize node (List.mem_cons_self ..)) hvisit
      rw [nodesBelowAll, List.map_cons, List.sum_cons] at hle
      refine ih ?_ ?_
      · intro n hn
        rcases List.mem_cons.mp hn with rfl | hn
        · exact hfirst
        · rcases List.mem_cons.mp hn with rfl | hn
          · exact hsecond
          · exact hsize n (List.mem_cons_of_mem _ hn)
      · rw [nodesBelowAll, List.map_cons, List.sum_cons, List.map_cons, List.sum_cons]
        omega

end Program

/-! ## The solver -/

namespace BranchAndBound

/-- How the search for a program ends. -/
def ending (s : BranchAndBound) (m : Program Rat) : Program.Ending Rat :=
  m.explore m.partitions s.maxNodes [Partial.free m.vars.size] none

/-- The answer is the best assignment where there is one, and otherwise an error that tells a
    search that was cut off from one that was not. -/
theorem solve_cases (s : BranchAndBound) (m : Program Rat) :
    (∃ a, (s.ending m).best = some a ∧ s.solve m = .ok a)
      ∨ ((s.ending m).best = none ∧ (s.ending m).limited = true
          ∧ s.solve m = .error (.nodeLimit s.maxNodes))
      ∨ ((s.ending m).best = none ∧ (s.ending m).limited = false
          ∧ s.solve m = .error .infeasible) := by
  unfold solve ending
  dsimp only
  split
  · next found hfound => exact .inl ⟨found, hfound, rfl⟩
  · next hnone =>
    split
    · next hlimited => exact .inr (.inl ⟨hnone, hlimited, rfl⟩)
    · next hlimited => exact .inr (.inr ⟨hnone, Bool.eq_false_iff.mpr hlimited, rfl⟩)

/-- An answer is the best assignment that the search ends with. -/
theorem best_of_solve {s : BranchAndBound} {m : Program Rat} {a : Assignment Rat}
    (h : s.solve m = .ok a) : (s.ending m).best = some a := by
  rcases s.solve_cases m with ⟨b, hb, hsolve⟩ | ⟨-, -, hsolve⟩ | ⟨-, -, hsolve⟩
  · rw [hsolve] at h
    rw [hb, Except.ok.inj h]
  · exact nomatch hsolve.symm.trans h
  · exact nomatch hsolve.symm.trans h

/-- An answer is a solution with its objective. -/
theorem isSound_of_solve {s : BranchAndBound} {m : Program Rat} {a : Assignment Rat}
    (h : s.solve m = .ok a) :
    m.isFeasible a.values = true ∧ a.objective = m.objectiveValue a.values :=
  m.isSound_explore s.maxNodes _ none (fun _ hnone => nomatch hnone) a (best_of_solve h)

/-- The assignment of no variable accounts for every solution. -/
theorem accountsFor_free (m : Program Rat) :
    m.AccountsFor [Partial.free m.vars.size] none := by
  intro values hvalues
  exact .inl ⟨_, List.mem_singleton_self _,
    Partial.completes_free (Program.size_of_isFeasible hvalues)⟩

/-- A search that may visit `2 ^ (n + 1) - 1` nodes for `n` variables is not cut off. -/
theorem limited_ending {s : BranchAndBound} {m : Program Rat} (hscope : m.InScope)
    (hnodes : 2 ^ (m.vars.size + 1) - 1 ≤ s.maxNodes) : (s.ending m).limited = false := by
  refine Program.limited_explore hscope _ _ _ ?_ ?_
  · intro node hnode
    rw [List.mem_singleton.mp hnode, Partial.free, Array.size_replicate]
  · have hfree : (Partial.free m.vars.size).freeCount ≤ m.vars.size := by
      have hle : (Partial.free m.vars.size).freeCount ≤ (Partial.free m.vars.size).size :=
        Array.countP_le_size
      rwa [Partial.free, Array.size_replicate] at hle
    have hpow : 2 ^ ((Partial.free m.vars.size).freeCount + 1) ≤ 2 ^ (m.vars.size + 1) :=
      Nat.pow_le_pow_right (by decide) (Nat.succ_le_succ hfree)
    show Program.nodesBelow (Partial.free m.vars.size) + 0 ≤ s.maxNodes
    unfold Program.nodesBelow
    omega

/-- **BRANCH AND BOUND IS EXACT**: an answer is a solution with its objective, and no solution
    undercuts it by more than the tolerance unless the search was cut off; a program that is
    called infeasible has no solution; and a search that may visit `2 ^ (n + 1) - 1` nodes for
    `n` variables is never cut off. -/
theorem solve_exact (s : BranchAndBound) (m : Program Rat) :
    (∀ a, s.solve m = .ok a →
        m.isFeasible a.values = true ∧ a.objective = m.objectiveValue a.values
          ∧ ((s.ending m).limited = false → ∀ values, m.isFeasible values = true →
              a.objective - 1 / 10 ^ 9 ≤ m.objectiveValue values))
      ∧ (s.solve m = .error .infeasible → ∀ values, m.isFeasible values = false)
      ∧ (m.InScope → 2 ^ (m.vars.size + 1) - 1 ≤ s.maxNodes →
          (s.ending m).limited = false ∧ ∀ nodes, s.solve m ≠ .error (.nodeLimit nodes)) := by
  have hcases := s.solve_cases m
  refine ⟨?_, ?_, ?_⟩
  · intro a ha
    have hbest := best_of_solve ha
    obtain ⟨hfeasible, hobjective⟩ := isSound_of_solve ha
    refine ⟨hfeasible, hobjective, ?_⟩
    intro hlimited values hvalues
    obtain ⟨b, hb, hle⟩ :=
      m.isMatched_explore s.maxNodes _ none (accountsFor_free m) hlimited values hvalues
    rw [Option.some.inj (hbest.symm.trans hb)]
    rw [Scalar.tolerance_rat] at hle
    norm_num at hle ⊢
    exact hle
  · intro hinfeasible values
    rcases hcases with ⟨b, -, hsolve⟩ | ⟨-, -, hsolve⟩ | ⟨hnone, hlimited, -⟩
    · exact nomatch hsolve.symm.trans hinfeasible
    · exact nomatch hsolve.symm.trans hinfeasible
    · cases hvalues : m.isFeasible values with
      | false => rfl
      | true =>
          obtain ⟨b, hb, -⟩ :=
            m.isMatched_explore s.maxNodes _ none (accountsFor_free m) hlimited values hvalues
          exact nomatch hnone.symm.trans hb
  · intro hscope hnodes
    have hlimited := limited_ending hscope hnodes
    refine ⟨hlimited, ?_⟩
    intro nodes hsolve
    rcases hcases with ⟨b, -, h⟩ | ⟨-, htrue, -⟩ | ⟨-, -, h⟩
    · exact nomatch h.symm.trans hsolve
    · exact nomatch hlimited.symm.trans htrue
    · exact nomatch h.symm.trans hsolve

/-- A program that gains by its first variable and may only take it with the second. -/
def pairProgram : Program Rat :=
  ((Program.empty.addVariable "x" (-2)).addVariable "y" 1).addConstraint "pair"
    [(0, 1), (1, -1)] .atMost 0

theorem inScope_pairProgram : pairProgram.InScope := by
  refine ((Program.inScope_empty.addVariable "x" (-2)).addVariable "y" 1).addConstraint "pair"
    .atMost 0 ?_
  intro t ht
  rcases List.mem_pair.mp ht with rfl | rfl
  · show 0 < 2
    decide
  · show 1 < 2
    decide

theorem solve_exact_pair :
    pairProgram.InScope ∧ (ofLimit 7).solve pairProgram = .ok ⟨#[true, true], -1⟩
      ∧ ∀ values, pairProgram.isFeasible values = true →
          -1 - 1 / 10 ^ 9 ≤ pairProgram.objectiveValue values := by
  have hsolve : (ofLimit 7).solve pairProgram = .ok ⟨#[true, true], -1⟩ := by cbv
  obtain ⟨hok, -, hlimit⟩ := solve_exact (ofLimit 7) pairProgram
  obtain ⟨hlimited, -⟩ := hlimit inScope_pairProgram (by decide)
  exact ⟨inScope_pairProgram, hsolve, (hok _ hsolve).2.2 hlimited⟩

end BranchAndBound

end IndexDesign.ZeroOne
