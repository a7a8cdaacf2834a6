import IndexDesign.Proofs.ZeroOne.BranchAndBound

/-! # Answers are minimal

    Let no variable lower the objective.  Solutions whose true variables are
    fewer, but as many of the partitions, cost no more than the solution that
    they are a minor of.  The search meets them first: on a variable of a
    partition both agree, and on any other the search tries false first.  So

    * whenever a solution completes a node of the stack, each minor of it
      completes that node or one above, or is matched by the best so far;
    * a solution that is found improves on all that is matched, its own minors
      included, so it has none but itself.

    Nothing is asked of how the search ends.  What it ends with is minimal even
    if it is cut off, and even among solutions of one objective. -/

namespace IndexDesign.ZeroOne

namespace Program

variable {m : Program Rat} {best : Option (Assignment Rat)} {node : Partial}
  {stack : List Partial} {values minor : Array Bool}

/-! ## Minors -/

/-- Some true variables are false instead, but none of the partitions. -/
structure IsMinor (m : Program Rat) (minor values : Array Bool) : Prop where
  le : ∀ v, minor.getD v false = true → values.getD v false = true
  agrees : ∀ c ∈ m.partitions, ∀ t ∈ c.terms, minor.getD t.1 false = values.getD t.1 false

/-- Where no variable has a negative objective, none of the numbers has. -/
theorem objective_nonneg_of_vars (hnonneg : ∀ x ∈ m.vars, 0 ≤ x.objective) (v : Nat) :
    0 ≤ m.objective v := by
  by_cases hv : v < m.vars.size
  · rw [objective_of_lt hv]
    exact hnonneg _ (Array.getElem_mem hv)
  · rw [objective, Array.getElem?_eq_none (not_lt.mp hv)]
    exact Scalar.zero_rat.ge

/-- A minor costs no more. -/
theorem objectiveValue_le_of_isMinor (hnonneg : ∀ x ∈ m.vars, 0 ≤ x.objective)
    (h : m.IsMinor minor values) (hminor : m.isFeasible minor = true)
    (hvalues : m.isFeasible values = true) : m.objectiveValue minor ≤ m.objectiveValue values := by
  rw [objectiveValue_eq m (size_of_isFeasible hminor),
    objectiveValue_eq m (size_of_isFeasible hvalues)]
  refine Finset.sum_le_sum fun v _ => ?_
  unfold costOf
  cases hv : minor.getD v false with
  | true => rw [h.le v hv]
  | false =>
      rw [if_neg Bool.false_ne_true]
      split
      · exact objective_nonneg_of_vars hnonneg v
      · exact le_refl 0

/-! ## The order of the stack -/

/-- Minors of what completes a node complete that node or one above, or are matched. -/
def MeetsMinorsFirst (m : Program Rat) (stack : List Partial) (best : Option (Assignment Rat)) :
    Prop :=
  ∀ above node below, stack = above ++ node :: below →
    ∀ values, m.isFeasible values = true → node.Completes values →
      ∀ minor, m.isFeasible minor = true → m.IsMinor minor values →
        (∃ n ∈ above ++ [node], n.Completes minor) ∨ IsMatched best (m.objectiveValue minor)

/-- Whatever completes the first child of a node has the value of its minors on the variable
    that the node splits on. -/
theorem agrees_of_branch (hnonneg : ∀ x ∈ m.vars, 0 ≤ x.objective) {p : Partial} {v : Nat}
    {b : Bool} (hbranch : m.branch? m.partitions p = some (v, b))
    (hvalues : (p.assign v b).Completes values) (hminor : m.IsMinor minor values) :
    minor.getD v false = values.getD v false := by
  rcases branch_cases hbranch with ⟨c, hc, hv⟩ | ⟨hlt, -, hb⟩
  · obtain ⟨t, ht, rfl⟩ := List.mem_map.mp (Constraint.mem_freeVariables.mp hv).1
    exact hminor.agrees c hc t ht
  · -- the variable is false, and no variable of a minor is true instead
    have hvalue : values.getD v false = false := by
      refine hvalues.agrees v false ?_
      rw [Partial.value_assign, if_pos ⟨rfl, hlt⟩, hb,
        decide_eq_false (not_lt.mpr (objective_nonneg_of_vars hnonneg v))]
    rw [hvalue]
    refine Bool.eq_false_iff.mpr fun htrue => ?_
    exact Bool.false_ne_true (hvalue.symm.trans (hminor.le v htrue))

/-- Values that agree on the variable complete the same assignment of it. -/
theorem completes_assign_of_agrees {p : Partial} {v : Nat} {b : Bool}
    (hvalues : (p.assign v b).Completes values) (hminor : p.Completes minor)
    (hagrees : minor.getD v false = values.getD v false) : (p.assign v b).Completes minor := by
  refine ⟨(p.size_assign v b).trans hminor.size_eq, ?_⟩
  intro w c hw
  by_cases hvw : v = w ∧ v < p.size
  · rw [← hvw.1, hagrees]
    exact hvalues.agrees v c (hvw.1 ▸ hw)
  · rw [Partial.value_assign, if_neg hvw] at hw
    exact hminor.agrees w c hw

/-- Of the children of a node, the first is the one to meet the minors of what completes it. -/
theorem completes_first_of_split (hnonneg : ∀ x ∈ m.vars, 0 ≤ x.objective)
    {first second : Partial} (hvisit : m.visit m.partitions best node = .split first second)
    (hvalues : first.Completes values) (hfeasible : m.isFeasible minor = true)
    (hminor : m.IsMinor minor values) (hnode : node.Completes minor) : first.Completes minor := by
  obtain ⟨p, v, b, hp, hbranch, rfl, -⟩ := exists_of_split hvisit
  exact completes_assign_of_agrees hvalues (completes_of_propagate hp hnode hfeasible)
    (agrees_of_branch hnonneg hbranch hvalues hminor)

/-- What completes a child completes the node. -/
theorem completes_of_child {first second : Partial}
    (hvisit : m.visit m.partitions best node = .split first second)
    (h : first.Completes values ∨ second.Completes values) : node.Completes values := by
  obtain ⟨p, v, b, hp, hbranch, rfl, rfl⟩ := exists_of_split hvisit
  have hnode := m.extends_propagate node p hp
  have hfree := isFree_of_branch hbranch
  rcases h with h | h
  · exact h.of_extends (hnode.trans (Partial.extends_assign b hfree))
  · exact h.of_extends (hnode.trans (Partial.extends_assign (!b) hfree))

/-! ## One visit -/

/-- A node that is left without children leaves its completions matched, if the best so far only
    falls. -/
theorem MeetsMinorsFirst.tail {next : Option (Assignment Rat)}
    (h : m.MeetsMinorsFirst (node :: stack) best)
    (hkeeps : ∀ x, IsMatched best x → IsMatched next x)
    (hnode : ∀ values, m.isFeasible values = true → node.Completes values →
      IsMatched next (m.objectiveValue values)) : m.MeetsMinorsFirst stack next := by
  rintro above n below rfl values hvalues hcomp minor hfeasible hminor
  rcases h (node :: above) n below rfl values hvalues hcomp minor hfeasible hminor with
    ⟨k, hk, hkcomp⟩ | hmatched
  · rcases List.mem_cons.mp hk with rfl | hk
    · exact .inr (hnode minor hfeasible hkcomp)
    · exact .inl ⟨k, hk, hkcomp⟩
  · exact .inr (hkeeps _ hmatched)

/-- Minors of what completes the node at the top complete it too, or are matched. -/
theorem MeetsMinorsFirst.head (h : m.MeetsMinorsFirst (node :: stack) best)
    (hvalues : m.isFeasible values = true) (hcomp : node.Completes values)
    (hfeasible : m.isFeasible minor = true) (hminor : m.IsMinor minor values) :
    node.Completes minor ∨ IsMatched best (m.objectiveValue minor) := by
  rcases h [] node stack rfl values hvalues hcomp minor hfeasible hminor with
    ⟨k, hk, hkcomp⟩ | hmatched
  · exact .inl (List.mem_singleton.mp hk ▸ hkcomp)
  · exact .inr hmatched

/-- The children of a node take its place. -/
theorem MeetsMinorsFirst.split (hnonneg : ∀ x ∈ m.vars, 0 ≤ x.objective)
    {first second : Partial} (hvisit : m.visit m.partitions best node = .split first second)
    (h : m.MeetsMinorsFirst (node :: stack) best) :
    m.MeetsMinorsFirst (first :: second :: stack) best := by
  have hchild : ∀ minor, m.isFeasible minor = true → node.Completes minor → ∀ rest,
      ∃ n ∈ first :: second :: rest, n.Completes minor := by
    intro minor hfeasible hnode rest
    rcases completes_of_split hvisit hnode hfeasible with hfirst | hsecond
    · exact ⟨first, List.mem_cons_self, hfirst⟩
    · exact ⟨second, List.mem_cons_of_mem _ List.mem_cons_self, hsecond⟩
  intro above n below hstack values hvalues hcomp minor hfeasible hminor
  cases above with
  | nil =>
      obtain ⟨rfl, -⟩ := List.cons.inj hstack
      rcases h.head hvalues (completes_of_child hvisit (.inl hcomp)) hfeasible hminor with
        hnode | hmatched
      · exact .inl ⟨first, List.mem_cons_self,
          completes_first_of_split hnonneg hvisit hcomp hfeasible hminor hnode⟩
      · exact .inr hmatched
  | cons x above =>
      obtain ⟨rfl, hbelow⟩ := List.cons.inj hstack
      cases above with
      | nil =>
          obtain ⟨rfl, -⟩ := List.cons.inj hbelow
          rcases h.head hvalues (completes_of_child hvisit (.inr hcomp)) hfeasible hminor with
            hnode | hmatched
          · exact .inl (hchild minor hfeasible hnode [])
          · exact .inr hmatched
      | cons y above =>
          obtain ⟨rfl, rfl⟩ := List.cons.inj hbelow
          rcases h (node :: above) n below rfl values hvalues hcomp minor hfeasible hminor with
            ⟨k, hk, hkcomp⟩ | hmatched
          · rcases List.mem_cons.mp hk with rfl | hk
            · exact .inl (hchild minor hfeasible hkcomp _)
            · exact .inl ⟨k, List.mem_cons_of_mem _ (List.mem_cons_of_mem _ hk), hkcomp⟩
          · exact .inr hmatched

/-! ## The whole search -/

/-- The best assignment has no minor among the solutions but itself. -/
def IsMinimal (m : Program Rat) (best : Option (Assignment Rat)) : Prop :=
  ∀ a, best = some a → ∀ minor, m.isFeasible minor = true → m.IsMinor minor a.values →
    minor = a.values

/-- What a visit finds is minimal. -/
theorem isMinimal_of_improved (hnonneg : ∀ x ∈ m.vars, 0 ≤ x.objective) {found : Assignment Rat}
    (hvisit : m.visit m.partitions best node = .improved found)
    (h : m.MeetsMinorsFirst (node :: stack) best) : m.IsMinimal (some found) := by
  obtain ⟨hfound, hobjective, himproves, hcomp, honly⟩ := spec_of_improved hvisit
  intro a ha minor hfeasible hminor
  obtain rfl := Option.some.inj ha
  rcases h.head hfound hcomp hfeasible hminor with hnode | ⟨b, rfl, hle⟩
  · exact honly minor hnode hfeasible
  -- a minor that was matched would cost more than what it is a minor of
  · have hlt : found.objective < b.objective - Scalar.tolerance := of_decide_eq_true himproves
    have hcost := objectiveValue_le_of_isMinor hnonneg hminor hfeasible hfound
    rw [hobjective] at hlt
    exact absurd (lt_of_lt_of_le hlt (le_trans hle hcost)) (lt_irrefl _)

/-- **THE SEARCH KEEPS THE BEST MINIMAL**, however many nodes it visits. -/
theorem isMinimal_explore (hnonneg : ∀ x ∈ m.vars, 0 ≤ x.objective) (allowance : Nat)
    (stack : List Partial) :
    ∀ best, m.MeetsMinorsFirst stack best → m.IsMinimal best →
      m.IsMinimal (m.explore m.partitions allowance stack best).best := by
  intro best
  fun_induction explore m m.partitions allowance stack best with
  | case1 => exact fun _ hminimal => hminimal
  | case2 => exact fun _ hminimal => hminimal
  | case3 allowance node stack best hvisit ih =>
      intro hfirst hminimal
      refine ih (hfirst.tail (fun _ hx => hx) fun values hvalues hcomp => ?_) hminimal
      exact isMatched_of_dropped hvisit hcomp hvalues
  | case4 allowance node stack best found hvisit ih =>
      intro hfirst _
      obtain ⟨-, hobjective, himproves, -, honly⟩ := spec_of_improved hvisit
      refine ih (hfirst.tail (fun _ hx => hx.of_improves himproves) fun values hvalues hcomp => ?_)
        (isMinimal_of_improved hnonneg hvisit hfirst)
      refine ⟨found, rfl, ?_⟩
      rw [honly values hcomp hvalues, ← hobjective]
      linarith [Scalar.tolerance_pos]
  | case5 allowance node stack best first second hvisit ih =>
      intro hfirst hminimal
      exact ih (hfirst.split hnonneg hvisit) hminimal

/-- At the start, the one node of the stack stands for all solutions. -/
theorem meetsMinorsFirst_free (m : Program Rat) :
    m.MeetsMinorsFirst [Partial.free m.vars.size] none := by
  intro above node below hstack _ _ _ minor hfeasible _
  refine .inl ⟨Partial.free m.vars.size, ?_, Partial.completes_free (size_of_isFeasible hfeasible)⟩
  cases above with
  | nil => rw [(List.cons.inj hstack).1]; exact List.mem_singleton_self _
  | cons x above => rw [(List.cons.inj hstack).1]; exact List.mem_cons_self

end Program

/-- **ANSWERS ARE MINIMAL**: where no variable lowers the objective, an answer stops being a
    solution when some of its variables are false instead that no partition counts. -/
theorem BranchAndBound.eq_of_isMinor {s : BranchAndBound} {m : Program Rat} {a : Assignment Rat}
    (hnonneg : ∀ x ∈ m.vars, 0 ≤ x.objective) (h : s.solve m = .ok a) {minor : Array Bool}
    (hfeasible : m.isFeasible minor = true) (hminor : m.IsMinor minor a.values) :
    minor = a.values :=
  m.isMinimal_explore hnonneg s.maxNodes _ none m.meetsMinorsFirst_free
    (fun _ hnone => nomatch hnone) a (best_of_solve h) minor hfeasible hminor

end IndexDesign.ZeroOne
