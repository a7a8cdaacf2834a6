import IndexDesign.Proofs.ZeroOne.Propagation
import IndexDesign.Proofs.ZeroOne.Scope
import IndexDesign.ZeroOne.Pass

/-! # Propagation ends in a fixed point

    Passes only assign, so a pass that leaves as many variables free has left
    the assignment as it was, and so has every constraint in it.  Hence

    * a further propagation has nothing to do;
    * where all variables are assigned, the least and the greatest activity of
      a constraint are its activity, and no constraint gives up only if all
      are satisfied;
    * the loop that repeats passes as long as they force values ends: each
      repeated pass uses up a free variable. -/

namespace IndexDesign.ZeroOne

/-! ## A pass that changes nothing -/

namespace Program

variable {m : Program Rat} {p q : Partial}

/-- Where a pass changes nothing, no constraint of it does. -/
theorem propagate_eq_self_of_mem (cs : List (Constraint Rat))
    (h : cs.foldlM (fun r c => c.propagate r) p = some p) :
    ∀ c ∈ cs, c.propagate p = some p := by
  induction cs with
  | nil => intro c hc; exact nomatch hc
  | cons d cs ih =>
      rw [List.foldlM_cons] at h
      obtain ⟨r, hr, hrest⟩ := Option.bind_eq_some_iff.mp h
      -- what the first constraint assigns, the others cannot take back
      obtain rfl : p = r :=
        (Constraint.extends_propagate hr).antisymm (extends_foldlM_propagate cs r hrest)
      exact List.forall_mem_cons.mpr ⟨hr, ih hrest⟩

/-- A pass changes nothing of what propagation ends with. -/
theorem propagateOnce_of_propagate (m : Program Rat) (p : Partial) :
    ∀ q, m.propagate p = some q → m.propagateOnce q = some q := by
  fun_induction propagate m p with
  | case1 p hnone => intro q h; cases h
  | case2 p r hr hlt ih => exact ih
  | case3 p r hr hlt =>
      intro q h
      obtain rfl : r = q := Option.some.inj h
      have hsame : p = r :=
        (extends_foldlM_propagate m.constraints p hr).eq_of_freeCount_le (not_lt.mp hlt)
      rwa [hsame] at hr

/-- What a pass does not change, propagation does not. -/
theorem propagate_of_propagateOnce (h : m.propagateOnce p = some p) :
    m.propagate p = some p := by
  rw [propagate, h]
  exact if_neg (lt_irrefl _)

end Program

/-! ## Assignments of all variables -/

theorem boundShare_of_assigned (share : Rat → Rat) {p : Partial} {t : Nat × Rat}
    (h : p.isFree t.1 = false) : boundShare share p t = termShare p.total t := by
  unfold boundShare termShare
  cases hp : p.value t.1 with
  | none => rw [Partial.isFree, hp] at h; exact nomatch h
  | some b => cases b <;> simp [p.completes_total.agrees _ _ hp]

/-- Where no variable is free, a constraint has the one activity. -/
theorem Constraint.activityWith_of_assigned (share : Rat → Rat) {c : Constraint Rat} {p : Partial}
    (h : ∀ t ∈ c.terms, p.isFree t.1 = false) : c.activityWith share p = c.activity p.total := by
  rw [activityWith_eq, activity_eq]
  exact congrArg List.sum (List.map_congr_left fun t ht => boundShare_of_assigned share (h t ht))

/-- A constraint without free variables gives up unless it is satisfied. -/
theorem Constraint.isSatisfied_of_propagate {c : Constraint Rat} {p q : Partial}
    (hassigned : ∀ t ∈ c.terms, p.isFree t.1 = false) (h : c.propagate p = some q) :
    c.isSatisfied p.total = true := by
  rw [propagate_eq] at h
  split at h
  · exact nomatch h
  · next hholds =>
    rw [leastActivity, greatestActivity, activityWith_of_assigned _ hassigned,
      activityWith_of_assigned _ hassigned, Bool.or_eq_true, not_or, Bool.not_eq_true,
      Bool.not_eq_true] at hholds
    exact (c.isSatisfied_iff p.total).mpr hholds

/-- An assignment of all variables that a pass does not change is a solution. -/
theorem Program.isFeasible_total {m : Program Rat} {p : Partial} (hscope : m.InScope)
    (hsize : p.size = m.vars.size) (hall : p.freeCount = 0)
    (h : m.propagateOnce p = some p) : m.isFeasible p.total = true := by
  rw [isFeasible, Bool.and_eq_true, beq_iff_eq, List.all_eq_true]
  refine ⟨by rw [Partial.total, Array.size_map, hsize], ?_⟩
  intro c hc
  refine Constraint.isSatisfied_of_propagate ?_ (propagate_eq_self_of_mem m.constraints h c hc)
  intro t ht
  exact Partial.isFree_eq_false_of_freeCount hall (hsize ▸ hscope c hc t ht)

/-! ## The loop -/

/-- The pass has begun with `p`, and its flag tells whether a free variable is free no more. -/
structure Pass.Follows (s : Pass) (p : Partial) : Prop where
  extended : p.Extends s.values
  changed_iff : s.changed = true ↔ s.values.freeCount < p.freeCount

namespace Constraint

variable {c : Constraint Rat} {s : Pass} {p : Partial}

theorem values_passTerm (c : Constraint Rat) (least greatest : Rat) (s : Pass) (t : Nat × Rat) :
    (c.passTerm least greatest s t).values = c.force least greatest s.values t := by
  unfold passTerm force
  by_cases hfree : s.values.isFree t.1 = true
  · rw [if_pos hfree, if_pos hfree]
    cases c.forced? least greatest t.2 <;> rfl
  · rw [if_neg hfree, if_neg hfree]

/-- One constraint in place assigns what it forces. -/
theorem values_pass (c : Constraint Rat) (s : Pass) :
    (c.pass s).map Pass.values = c.propagate s.values := by
  rw [propagate_eq]
  unfold pass
  dsimp only
  split
  · rfl
  · exact congrArg some
      (List.foldl_hom Pass.values fun r t => (c.values_passTerm _ _ r t).symm).symm

/-- A term sets the flag where it assigns a variable, which is free no more. -/
theorem follows_passTerm (h : s.Follows p) (least greatest : Rat) {t : Nat × Rat}
    (ht : t.1 < p.size) : (c.passTerm least greatest s t).Follows p := by
  unfold passTerm
  by_cases hfree : s.values.isFree t.1 = true
  · rw [if_pos hfree]
    cases c.forced? least greatest t.2 with
    | none => exact h
    | some b =>
        refine ⟨h.extended.trans (Partial.extends_assign b hfree), ?_⟩
        have hcount := Partial.freeCount_assign b (h.extended.size_eq ▸ ht) hfree
        have hle := h.extended.freeCount_le
        exact ⟨fun _ => by dsimp only; omega, fun _ => rfl⟩
  · rw [if_neg hfree]
    exact h

theorem follows_pass {s' : Pass} (hscope : ∀ t ∈ c.terms, t.1 < p.size) (h : s.Follows p)
    (hpass : c.pass s = some s') : s'.Follows p := by
  unfold pass at hpass
  dsimp only at hpass
  split at hpass
  · exact nomatch hpass
  · rw [← Option.some.inj hpass]
    exact List.foldlRecOn c.terms _ (motive := (Pass.Follows · p)) h
      fun r hr t ht => follows_passTerm hr _ _ (hscope t ht)

end Constraint

namespace Program

variable {m : Program Rat} {p : Partial}

theorem values_foldlM_pass (cs : List (Constraint Rat)) : ∀ s : Pass,
    (cs.foldlM (fun s (c : Constraint Rat) => c.pass s) s).map Pass.values
      = cs.foldlM (fun r c => c.propagate r) s.values := by
  induction cs with
  | nil => intro s; rfl
  | cons c cs ih =>
      intro s
      rw [List.foldlM_cons, List.foldlM_cons, ← c.values_pass s]
      cases c.pass s with
      | none => rfl
      | some s' => exact ih s'

/-- **ONE PASS IN PLACE** assigns what the constraints force, and its flag tells whether that
    leaves fewer variables free. -/
theorem pass_eq (hscope : m.InScope) (hsize : p.size = m.vars.size) :
    m.pass p = (m.propagateOnce p).map fun q => ⟨q, decide (q.freeCount < p.freeCount)⟩ := by
  have hvalues : (m.pass p).map Pass.values = m.propagateOnce p :=
    values_foldlM_pass m.constraints ⟨p, false⟩
  cases hpass : m.pass p with
  | none => rw [← hvalues, hpass]; rfl
  | some s =>
      have hstart : (⟨p, false⟩ : Pass).Follows p :=
        ⟨.refl p, iff_of_false Bool.false_ne_true (lt_irrefl _)⟩
      have hs : s.Follows p := foldlM_induction m.constraints
        (fun c hc _ _ h => Constraint.follows_pass (fun t ht => hsize ▸ hscope c hc t ht) h)
        hstart hpass
      have hflag : s.changed = decide (s.values.freeCount < p.freeCount) :=
        Bool.eq_iff_iff.mpr (hs.changed_iff.trans decide_eq_true_iff.symm)
      rw [← hvalues, hpass]
      show some s = some ⟨s.values, _⟩
      rw [← hflag]

/-- The loop ends with what propagation answers, after at most one pass more than there are free
    variables. -/
theorem exists_endsAfter (hscope : m.InScope) (p : Partial) : p.size = m.vars.size →
    ∃ n ≤ p.freeCount + 1, m.EndsAfter n p (m.propagate p) := by
  fun_induction propagate m p with
  | case1 p hnone =>
      intro hsize
      refine ⟨1, Nat.le_add_left 1 _, .failed ?_⟩
      rw [pass_eq hscope hsize, hnone]
      rfl
  | case2 p q hq hlt ih =>
      intro hsize
      have hextends := extends_foldlM_propagate m.constraints p hq
      obtain ⟨n, hn, hrest⟩ := ih (hextends.size_eq.symm.trans hsize)
      refine ⟨n + 1, by omega, .again ?_ hrest⟩
      rw [pass_eq hscope hsize, hq]
      exact congrArg (fun b => some (Pass.mk q b)) (decide_eq_true hlt)
  | case3 p q hq hlt =>
      intro hsize
      refine ⟨1, Nat.le_add_left 1 _, .settled ?_⟩
      rw [pass_eq hscope hsize, hq]
      exact congrArg (fun b => some (Pass.mk q b)) (decide_eq_false hlt)

/-- The loop has one run. -/
theorem EndsAfter.unique {n k : Nat} {r s : Option Partial} (h : m.EndsAfter n p r)
    (h' : m.EndsAfter k p s) : k = n ∧ s = r := by
  induction h generalizing k with
  | failed hp =>
      cases h' with
      | failed _ => exact ⟨rfl, rfl⟩
      | settled hq => exact nomatch hp.symm.trans hq
      | again hq _ => exact nomatch hp.symm.trans hq
  | settled hp =>
      cases h' with
      | failed hq => exact nomatch hp.symm.trans hq
      | settled hq => exact ⟨rfl, congrArg (Option.map Pass.values) (hq.symm.trans hp)⟩
      | again hq _ => exact nomatch hp.symm.trans hq
  | again hp _ ih =>
      cases h' with
      | failed hq => exact nomatch hp.symm.trans hq
      | settled hq => exact nomatch hp.symm.trans hq
      | again hq hrest =>
          obtain ⟨rfl, -⟩ := Pass.mk.inj (Option.some.inj (hq.symm.trans hp))
          obtain ⟨rfl, hs⟩ := ih hrest
          exact ⟨rfl, hs⟩

/-- **PROPAGATION IS SOUND AND ENDS IN A FIXED POINT**: its loop has one run, which makes at most
    one pass more than there are free variables.  Where it gives up there is no solution among the
    completions.  Otherwise it only assigns free variables and keeps every solution, has nothing
    left to do, and is itself a solution where it has assigned all variables. -/
theorem propagate_sound_stable (hscope : m.InScope) (hsize : p.size = m.vars.size) :
    (∃ n ≤ p.freeCount + 1, ∀ k r, m.EndsAfter k p r ↔ k = n ∧ r = m.propagate p)
      ∧ (m.propagate p = none → ∀ values, p.Completes values → m.isFeasible values = false)
      ∧ ∀ q, m.propagate p = some q →
          p.Extends q
            ∧ (∀ values, p.Completes values → m.isFeasible values = true → q.Completes values)
            ∧ m.propagate q = some q
            ∧ (q.freeCount = 0 → m.isFeasible q.total = true) := by
  refine ⟨?_, ?_, ?_⟩
  · obtain ⟨n, hn, hends⟩ := exists_endsAfter hscope p hsize
    refine ⟨n, hn, fun k r => ⟨hends.unique, ?_⟩⟩
    rintro ⟨rfl, rfl⟩
    exact hends
  · intro hnone values hcomp
    refine Bool.eq_false_iff.mpr fun hfeasible => ?_
    obtain ⟨q, hq, -⟩ := m.exists_propagate p hcomp (isSatisfied_of_isFeasible hfeasible)
    exact nomatch hnone.symm.trans hq
  · intro q hq
    have hextends := m.extends_propagate p q hq
    have hfixed := m.propagateOnce_of_propagate p q hq
    refine ⟨hextends, ?_, propagate_of_propagateOnce hfixed, ?_⟩
    · intro values hcomp hfeasible
      exact completes_of_propagate hq hcomp hfeasible
    · intro hall
      exact isFeasible_total hscope (hextends.size_eq.symm.trans hsize) hall hfixed

/-- A program whose first constraint forces nothing until the second one has. -/
def chainProgram : Program Rat :=
  (((Program.empty.addVariable "x" 1).addVariable "y" 1).addConstraint "x needs y"
    [(0, 1), (1, -1)] .atMost 0).addConstraint "x" [(0, 1)] .exactly 1

theorem propagate_sound_stable_chain :
    chainProgram.InScope ∧ (Partial.free 2).size = chainProgram.vars.size
      ∧ (∃ n ≤ 3, ∀ k r, chainProgram.EndsAfter k (Partial.free 2) r
          ↔ k = n ∧ r = some #[some true, some true])
      ∧ chainProgram.isFeasible #[true, true] = true
      ∧ ∀ values, ((Partial.free 2).assign 1 false).Completes values →
          chainProgram.isFeasible values = false := by
  have hscope : chainProgram.InScope := by
    unfold InScope
    decide +kernel
  have hforced : chainProgram.propagate (Partial.free 2) = some #[some true, some true] := by cbv
  have hnone : chainProgram.propagate ((Partial.free 2).assign 1 false) = none := by cbv
  have hcount : (Partial.free 2).freeCount = 2 := by decide
  have htotal : Partial.total #[some true, some true] = #[true, true] := by cbv
  obtain ⟨hends, -, hsome⟩ := propagate_sound_stable hscope (p := Partial.free 2) rfl
  obtain ⟨-, hfails, -⟩ := propagate_sound_stable hscope (p := (Partial.free 2).assign 1 false) rfl
  obtain ⟨-, -, -, hsolution⟩ := hsome _ hforced
  rw [hcount, hforced] at hends
  rw [htotal] at hsolution
  exact ⟨hscope, rfl, hends, hsolution (by decide), hfails hnone⟩

end Program

end IndexDesign.ZeroOne
