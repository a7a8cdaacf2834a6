import IndexDesign.Proofs.ZeroOne.Activity

/-! # Propagation keeps every solution

    Propagation assigns a variable only where the other value breaks a
    constraint in all completions, and gives up only where every completion
    breaks one.  So the completions that satisfy the program are the same
    before and after, through one constraint, one pass and all passes. -/

namespace IndexDesign.ZeroOne

/-- What each step keeps, a fold of steps that may fail keeps where it does not fail. -/
theorem foldlM_induction {β γ : Type} {f : β → γ → Option β} {P : β → Prop} (xs : List γ)
    (hstep : ∀ x ∈ xs, ∀ b b', P b → f b x = some b' → P b') {b b' : β} (hb : P b)
    (h : xs.foldlM f b = some b') : P b' := by
  induction xs generalizing b with
  | nil =>
      rw [List.foldlM_nil] at h
      rwa [← Option.some.inj h]
  | cons x xs ih =>
      obtain ⟨hx, hxs⟩ := List.forall_mem_cons.mp hstep
      rw [List.foldlM_cons] at h
      obtain ⟨r, hr, hrest⟩ := Option.bind_eq_some_iff.mp h
      exact ih hxs (hx b r hb hr) hrest

namespace Constraint

variable {c : Constraint Rat} {p q : Partial} {values : Array Bool}

/-- A forced value is the value of every completion that satisfies the constraint. -/
theorem value_of_forced (h : p.Completes values) (hsat : c.isSatisfied values = true)
    {v : Nat} {x : Rat} (hmem : (v, x) ∈ c.terms) (hfree : p.isFree v = true) {b : Bool}
    (hforced : c.forced? (c.leastActivity p) (c.greatestActivity p) x = some b) :
    values.getD v false = b := by
  obtain ⟨hex, hsh⟩ := (c.isSatisfied_iff values).mp hsat
  have hleast := leastActivity_add_le h hmem hfree
  have hgreatest := activity_le_greatestActivity_sub h hmem hfree
  -- with the other value the activity passes the point at which the constraint breaks
  have hover : ∀ a, a ≤ c.activity values → ¬ c.exceeds a = true := by
    intro a ha hexa
    rw [exceeds_mono ha hexa] at hex
    exact nomatch hex
  have hunder : ∀ a, c.activity values ≤ a → ¬ c.fallsShort a = true := by
    intro a ha hsha
    rw [fallsShort_anti ha hsha] at hsh
    exact nomatch hsh
  unfold forced? at hforced
  rw [Scalar.zero_rat] at hforced
  split at hforced
  · next hcond =>
    obtain ⟨hx, hexa⟩ := (Bool.and_eq_true _ _).mp hcond
    have hpos : 0 < x := of_decide_eq_true hx
    cases hv : values.getD v false with
    | false => exact Option.some.inj hforced
    | true =>
        rw [hv, if_pos rfl, max_eq_left hpos.le] at hleast
        exact absurd hexa (hover _ hleast)
  · split at hforced
    · next hcond =>
      obtain ⟨hx, hexa⟩ := (Bool.and_eq_true _ _).mp hcond
      have hneg : x < 0 := of_decide_eq_true hx
      cases hv : values.getD v false with
      | true => exact Option.some.inj hforced
      | false =>
          rw [hv, if_neg Bool.false_ne_true, max_eq_left (by linarith), ← sub_eq_add_neg] at hleast
          exact absurd hexa (hover _ hleast)
    · split at hforced
      · next hcond =>
        obtain ⟨hx, hsha⟩ := (Bool.and_eq_true _ _).mp hcond
        have hpos : 0 < x := of_decide_eq_true hx
        cases hv : values.getD v false with
        | true => exact Option.some.inj hforced
        | false =>
            rw [hv, if_neg Bool.false_ne_true, max_eq_left hpos.le] at hgreatest
            exact absurd hsha (hunder _ hgreatest)
      · split at hforced
        · next hcond =>
          obtain ⟨hx, hsha⟩ := (Bool.and_eq_true _ _).mp hcond
          have hneg : x < 0 := of_decide_eq_true hx
          cases hv : values.getD v false with
          | false => exact Option.some.inj hforced
          | true =>
              rw [hv, if_pos rfl, max_eq_left (by linarith), sub_neg_eq_add] at hgreatest
              exact absurd hsha (hunder _ hgreatest)
        · exact nomatch hforced

/-- What a term does to the assignment in a pass that judges by the given activities. -/
def force (c : Constraint Rat) (least greatest : Rat) (q : Partial) (t : Nat × Rat) : Partial :=
  if q.isFree t.1 then (c.forced? least greatest t.2).elim q (q.assign t.1) else q

theorem propagate_eq (c : Constraint Rat) (p : Partial) :
    c.propagate p
      = if c.exceeds (c.leastActivity p) || c.fallsShort (c.greatestActivity p) then none
        else some (c.terms.foldl (c.force (c.leastActivity p) (c.greatestActivity p)) p) := rfl

theorem extends_force (c : Constraint Rat) (least greatest : Rat) (q : Partial)
    (t : Nat × Rat) : q.Extends (c.force least greatest q t) := by
  unfold force
  by_cases hfree : q.isFree t.1 = true
  · rw [if_pos hfree]
    cases c.forced? least greatest t.2 with
    | none => exact Partial.Extends.refl q
    | some b => exact Partial.extends_assign b hfree
  · rw [if_neg hfree]
    exact Partial.Extends.refl q

/-- A term keeps the completions that satisfy the constraint, where the activities are those of
    an assignment which the present one extends. -/
theorem completes_force (h : p.Completes values) (hsat : c.isSatisfied values = true)
    (hpq : p.Extends q) (hq : q.Completes values) {t : Nat × Rat} (ht : t ∈ c.terms) :
    (c.force (c.leastActivity p) (c.greatestActivity p) q t).Completes values := by
  unfold force
  by_cases hfree : q.isFree t.1 = true
  · rw [if_pos hfree]
    cases hf : c.forced? (c.leastActivity p) (c.greatestActivity p) t.2 with
    | none => exact hq
    | some b =>
        have hb : values.getD t.1 false = b :=
          value_of_forced h hsat ht (Partial.isFree_of_extends hpq hfree) hf
        rw [← hb]
        exact hq.assign t.1
  · rw [if_neg hfree]
    exact hq

/-- Propagation through one constraint extends the assignment. -/
theorem extends_propagate (h : c.propagate p = some q) : p.Extends q := by
  rw [propagate_eq] at h
  split at h
  · exact nomatch h
  · rw [← Option.some.inj h]
    exact List.foldlRecOn c.terms _ (.refl p) fun r hr t _ => hr.trans (c.extends_force _ _ r t)

/-- **ONE CONSTRAINT IS SOUND**: a completion that satisfies the constraint survives. -/
theorem exists_propagate (h : p.Completes values) (hsat : c.isSatisfied values = true) :
    ∃ q, c.propagate p = some q ∧ q.Completes values := by
  obtain ⟨hex, hsh⟩ := (c.isSatisfied_iff values).mp hsat
  have hleast : c.exceeds (c.leastActivity p) = false := by
    cases he : c.exceeds (c.leastActivity p) with
    | false => rfl
    | true =>
        rw [exceeds_mono (leastActivity_le h) he] at hex
        exact nomatch hex
  have hgreatest : c.fallsShort (c.greatestActivity p) = false := by
    cases hf : c.fallsShort (c.greatestActivity p) with
    | false => rfl
    | true =>
        rw [fallsShort_anti (le_greatestActivity h) hf] at hsh
        exact nomatch hsh
  -- all terms are judged by the activities at the start, which the assignment so far extends
  have hkeeps := List.foldlRecOn c.terms (c.force (c.leastActivity p) (c.greatestActivity p))
    (motive := fun q => p.Extends q ∧ q.Completes values) ⟨.refl p, h⟩
    fun q hq t ht => ⟨hq.1.trans (c.extends_force _ _ q t), completes_force h hsat hq.1 hq.2 ht⟩
  refine ⟨_, ?_, hkeeps.2⟩
  rw [propagate_eq, hleast, hgreatest]
  rfl

end Constraint

/-! ## Passes over all constraints -/

namespace Program

variable {m : Program Rat} {p q : Partial} {values : Array Bool}

theorem extends_foldlM_propagate (cs : List (Constraint Rat)) (p : Partial)
    (h : cs.foldlM (fun r c => c.propagate r) p = some q) : p.Extends q :=
  foldlM_induction cs (fun _ _ _ _ hr h => hr.trans (Constraint.extends_propagate h)) (.refl p) h

theorem exists_foldlM_propagate (cs : List (Constraint Rat)) :
    ∀ p : Partial, p.Completes values → (∀ c ∈ cs, c.isSatisfied values = true) →
      ∃ q, cs.foldlM (fun r c => c.propagate r) p = some q ∧ q.Completes values := by
  induction cs with
  | nil => intro p h _; exact ⟨p, rfl, h⟩
  | cons c cs ih =>
      intro p h hsat
      obtain ⟨r, hr, hcomp⟩ := Constraint.exists_propagate h (hsat c (List.mem_cons_self ..))
      obtain ⟨q, hq, hqc⟩ := ih r hcomp (fun d hd => hsat d (List.mem_cons_of_mem _ hd))
      refine ⟨q, ?_, hqc⟩
      rw [List.foldlM_cons, hr]
      exact hq

/-- Propagation extends the assignment. -/
theorem extends_propagate (m : Program Rat) (p : Partial) :
    ∀ q, m.propagate p = some q → p.Extends q := by
  fun_induction propagate m p with
  | case1 p hnone => intro q h; exact nomatch h
  | case2 p r hr hlt ih =>
      intro q h
      exact (extends_foldlM_propagate m.constraints p hr).trans (ih q h)
  | case3 p r hr hlt =>
      intro q h
      rw [← Option.some.inj h]
      exact extends_foldlM_propagate m.constraints p hr

/-- **PROPAGATION IS SOUND**: a completion that satisfies every constraint survives. -/
theorem exists_propagate (m : Program Rat) (p : Partial) :
    p.Completes values → (∀ c ∈ m.constraints, c.isSatisfied values = true) →
      ∃ q, m.propagate p = some q ∧ q.Completes values := by
  fun_induction propagate m p with
  | case1 p hnone =>
      intro h hsat
      obtain ⟨q, hq, -⟩ := exists_foldlM_propagate m.constraints p h hsat
      rw [propagateOnce, hq] at hnone
      exact nomatch hnone
  | case2 p r hr hlt ih =>
      intro h hsat
      obtain ⟨q, hq, hqc⟩ := exists_foldlM_propagate m.constraints p h hsat
      rw [propagateOnce, hq] at hr
      rw [← Option.some.inj hr] at ih ⊢
      exact ih hqc hsat
  | case3 p r hr hlt =>
      intro h hsat
      obtain ⟨q, hq, hqc⟩ := exists_foldlM_propagate m.constraints p h hsat
      rw [propagateOnce, hq] at hr
      rw [← Option.some.inj hr]
      exact ⟨q, rfl, hqc⟩

/-- What propagation leaves is completed by every solution that completes what it began with. -/
theorem completes_of_propagate (h : m.propagate p = some q) (hp : p.Completes values)
    (hfeasible : m.isFeasible values = true) : q.Completes values := by
  obtain ⟨r, hr, hcomp⟩ := m.exists_propagate p hp (isSatisfied_of_isFeasible hfeasible)
  rwa [Option.some.inj (h.symm.trans hr)]

end Program

end IndexDesign.ZeroOne
