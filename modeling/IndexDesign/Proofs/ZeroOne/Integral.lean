import IndexDesign.Proofs.ZeroOne.Activity

/-! # Integral constraints hold exactly or not at all

    Constraints are compared with a slack and lose their small terms when they
    are added to a program.  Where all coefficients and the bound are integers
    neither makes a difference: sums of integers that are closer than the slack
    are equal, and a small integer is zero.  So a program made of integral
    constraints means those constraints, as they were written. -/

namespace IndexDesign.ZeroOne

/-! ## Integers among exact numbers -/

/-- The number is an integer. -/
def IsInteger (x : Rat) : Prop := ∃ z : Int, x = z

theorem IsInteger.zero : IsInteger 0 := ⟨0, by simp⟩

theorem IsInteger.one : IsInteger 1 := ⟨1, by simp⟩

theorem IsInteger.add {x y : Rat} (hx : IsInteger x) (hy : IsInteger y) : IsInteger (x + y) := by
  obtain ⟨a, rfl⟩ := hx
  obtain ⟨b, rfl⟩ := hy
  exact ⟨a + b, by simp⟩

theorem IsInteger.sub {x y : Rat} (hx : IsInteger x) (hy : IsInteger y) : IsInteger (x - y) := by
  obtain ⟨a, rfl⟩ := hx
  obtain ⟨b, rfl⟩ := hy
  exact ⟨a - b, by simp⟩

theorem IsInteger.mul {x y : Rat} (hx : IsInteger x) (hy : IsInteger y) : IsInteger (x * y) := by
  obtain ⟨a, rfl⟩ := hx
  obtain ⟨b, rfl⟩ := hy
  exact ⟨a * b, by simp⟩

theorem IsInteger.sum {xs : List Rat} (h : ∀ x ∈ xs, IsInteger x) : IsInteger xs.sum := by
  induction xs with
  | nil => exact IsInteger.zero
  | cons x xs ih =>
      rw [List.sum_cons]
      exact (h x (List.mem_cons_self ..)).add (ih fun y hy => h y (List.mem_cons_of_mem _ hy))

theorem IsInteger.product (xs : List Rat) :
    ∀ start, IsInteger start → (∀ x ∈ xs, IsInteger x) →
      IsInteger (xs.foldl (fun x y => x * y) start) := by
  induction xs with
  | nil => intro start hstart _; exact hstart
  | cons x xs ih =>
      intro start hstart h
      exact ih _ (hstart.mul (h x (List.mem_cons_self ..)))
        fun y hy => h y (List.mem_cons_of_mem _ hy)

theorem IsInteger.ofCount (n : Nat) : IsInteger (Scalar.ofCount n) := ⟨n, Int.cast_natCast n⟩

theorem IsInteger.max {x y : Rat} (hx : IsInteger x) (hy : IsInteger y) :
    IsInteger (Scalar.max x y) := by
  rw [Scalar.max_rat]
  rcases max_choice x y with h | h
  · rwa [h]
  · rwa [h]

theorem IsInteger.min {x y : Rat} (hx : IsInteger x) (hy : IsInteger y) :
    IsInteger (Scalar.min x y) := by
  rw [Scalar.min_rat]
  rcases min_choice x y with h | h
  · rwa [h]
  · rwa [h]

/-- An integer that exceeds zero by no more than the slack does not exceed it. -/
theorem IsInteger.nonpos {x : Rat} (hx : IsInteger x) (h : x ≤ Scalar.tolerance) : x ≤ 0 := by
  obtain ⟨z, rfl⟩ := hx
  rw [Scalar.tolerance_rat] at h
  have hlt : (z : Rat) < 1 := lt_of_le_of_lt h (by norm_num)
  have hz : z < 1 := by exact_mod_cast hlt
  exact_mod_cast Int.lt_add_one_iff.mp hz

namespace Constraint

/-! ## Exact comparison -/

/-- All coefficients and the bound are integers. -/
structure IsIntegral (c : Constraint Rat) : Prop where
  coefficient : ∀ t ∈ c.terms, IsInteger t.2
  bound : IsInteger c.bound

/-- The constraint holds without any slack. -/
def Holds (c : Constraint Rat) (values : Array Bool) : Prop :=
  match c.sense with
  | .atMost => c.activity values ≤ c.bound
  | .exactly => c.activity values = c.bound
  | .atLeast => c.bound ≤ c.activity values

variable {c : Constraint Rat} {values : Array Bool}

theorem IsIntegral.activity (h : c.IsIntegral) (values : Array Bool) :
    IsInteger (c.activity values) := by
  rw [activity_eq]
  refine IsInteger.sum ?_
  intro x hx
  obtain ⟨t, ht, rfl⟩ := List.mem_map.mp hx
  unfold termShare
  split
  · exact h.coefficient t ht
  · exact IsInteger.zero

/-- An integral constraint needs no slack. -/
theorem IsIntegral.isSatisfied_iff_holds (h : c.IsIntegral) :
    c.isSatisfied values = true ↔ c.Holds values := by
  -- an integer that is at most the tolerance is at most zero
  have hover := (h.activity values).sub h.bound
  have hunder := h.bound.sub (h.activity values)
  have hpos := Scalar.tolerance_pos
  unfold isSatisfied Holds
  cases c.sense with
  | atMost =>
      show decide (c.activity values ≤ c.bound + Scalar.tolerance) = true ↔ _
      rw [decide_eq_true_iff]
      constructor
      · intro hle
        linarith [hover.nonpos (by linarith)]
      · intro hle
        show c.activity values ≤ c.bound + Scalar.tolerance
        linarith
  | exactly =>
      show decide (Scalar.abs (c.activity values - c.bound) ≤ Scalar.tolerance) = true ↔ _
      rw [decide_eq_true_iff, Scalar.abs_rat]
      constructor
      · intro hle
        obtain ⟨hlow, hhigh⟩ := abs_le.mp hle
        show c.activity values = c.bound
        linarith [hover.nonpos hhigh, hunder.nonpos (by linarith)]
      · intro heq
        have hzero : c.activity values - c.bound = 0 := sub_eq_zero.mpr heq
        rw [hzero, abs_zero]
        exact hpos.le
  | atLeast =>
      show decide (c.bound - Scalar.tolerance ≤ c.activity values) = true ↔ _
      rw [decide_eq_true_iff]
      constructor
      · intro hle
        linarith [hunder.nonpos (by linarith)]
      · intro hle
        show c.bound - Scalar.tolerance ≤ c.activity values
        linarith

end Constraint

/-! ## Adding constraints to a program -/

namespace Program

theorem sum_addTerm (values : Array Bool) (v : Nat) (x : Rat) (ts : List (Nat × Rat)) :
    ((addTerm v x ts).map (termShare values)).sum
      = (ts.map (termShare values)).sum + termShare values (v, x) := by
  induction ts with
  | nil => simp [addTerm]
  | cons t ts ih =>
      obtain ⟨w, y⟩ := t
      unfold addTerm
      by_cases hw : w = v
      · subst hw
        rw [if_pos rfl, List.map_cons, List.sum_cons, List.map_cons, List.sum_cons]
        have hshare : termShare values (w, y + x)
            = termShare values (w, y) + termShare values (w, x) := by
          unfold termShare
          split
          · rfl
          · exact (add_zero 0).symm
        rw [hshare]
        linarith
      · rw [if_neg hw, List.map_cons, List.sum_cons, List.map_cons, List.sum_cons, ih, add_assoc]

/-- Merging terms does not change their sum. -/
theorem sum_mergeTerms (values : Array Bool) (terms : List (Nat × Rat)) :
    ((mergeTerms terms).map (termShare values)).sum = (terms.map (termShare values)).sum := by
  have hfold : ∀ ts merged : List (Nat × Rat),
      ((ts.foldl (fun merged (v, x) => addTerm v x merged) merged).map (termShare values)).sum
        = (merged.map (termShare values)).sum + (ts.map (termShare values)).sum := by
    intro ts
    induction ts with
    | nil => intro merged; simp
    | cons t ts ih =>
        intro merged
        rw [List.foldl_cons, ih, sum_addTerm, List.map_cons, List.sum_cons, add_assoc]
  have h := hfold terms []
  rw [List.map_nil, List.sum_nil, zero_add] at h
  exact h

theorem isInteger_addTerm {v : Nat} {x : Rat} (hx : IsInteger x) (ts : List (Nat × Rat))
    (h : ∀ t ∈ ts, IsInteger t.2) : ∀ t ∈ addTerm v x ts, IsInteger t.2 := by
  induction ts with
  | nil =>
      intro t ht
      rw [List.mem_singleton.mp ht]
      exact hx
  | cons s ts ih =>
      have hs := h s (List.mem_cons_self ..)
      have hrest : ∀ t ∈ ts, IsInteger t.2 := fun t ht => h t (List.mem_cons_of_mem _ ht)
      intro t ht
      unfold addTerm at ht
      split at ht
      · rcases List.mem_cons.mp ht with rfl | ht
        · exact hs.add hx
        · exact hrest t ht
      · rcases List.mem_cons.mp ht with rfl | ht
        · exact hs
        · exact ih hrest t ht

theorem isInteger_mergeTerms {terms : List (Nat × Rat)} (h : ∀ t ∈ terms, IsInteger t.2) :
    ∀ t ∈ mergeTerms terms, IsInteger t.2 := by
  have hfold : ∀ ts merged : List (Nat × Rat), (∀ t ∈ ts, IsInteger t.2) →
      (∀ t ∈ merged, IsInteger t.2) →
        ∀ t ∈ ts.foldl (fun merged (v, x) => addTerm v x merged) merged, IsInteger t.2 := by
    intro ts
    induction ts with
    | nil => intro merged _ hmerged; exact hmerged
    | cons s ts ih =>
        intro merged hts hmerged
        exact ih _ (fun t ht => hts t (List.mem_cons_of_mem _ ht))
          (isInteger_addTerm (hts s (List.mem_cons_self ..)) merged hmerged)
  exact hfold terms [] h fun _ ht => nomatch ht

/-- The constraint as a program keeps it: merged, without terms that weigh next to nothing. -/
def kept (c : Constraint Rat) : Constraint Rat :=
  { c with terms :=
      (mergeTerms c.terms).filter fun (_, x) => decide (Scalar.tolerance < Scalar.abs x) }

theorem ofParts_eq (vars : List (Variable Rat)) (cs : List (Constraint Rat)) :
    ofParts vars cs = ⟨vars.toArray, cs.map kept⟩ := by
  have hfold : ∀ (cs : List (Constraint Rat)) (m : Program Rat),
      cs.foldl (fun m c => m.addConstraint c.name c.terms c.sense c.bound) m
        = ⟨m.vars, m.constraints ++ cs.map kept⟩ := by
    intro cs
    induction cs with
    | nil => intro m; simp
    | cons c cs ih =>
        intro m
        rw [List.foldl_cons, ih, List.map_cons]
        show Program.mk m.vars ((m.constraints ++ [kept c]) ++ cs.map kept) = _
        rw [List.append_assoc]
        rfl
  exact hfold cs ⟨vars.toArray, []⟩

/-- More constraints have to be satisfied as they are kept. -/
theorem isFeasible_ofParts_append {vars : List (Variable Rat)} {cs ds : List (Constraint Rat)}
    {values : Array Bool} : (ofParts vars (cs ++ ds)).isFeasible values = true
      ↔ (ofParts vars cs).isFeasible values = true
        ∧ ∀ d ∈ ds, (kept d).isSatisfied values = true := by
  rw [ofParts_eq, ofParts_eq, isFeasible, isFeasible, Bool.and_eq_true, Bool.and_eq_true,
    List.all_eq_true, List.all_eq_true, and_assoc, List.map_append, List.forall_mem_append,
    List.forall_mem_map (l := ds)]

/-- A constraint with integers for coefficients loses only terms of weight zero. -/
theorem activity_kept {c : Constraint Rat} (h : ∀ t ∈ c.terms, IsInteger t.2)
    (values : Array Bool) :
    (kept c).activity values = c.activity values := by
  rw [Constraint.activity_eq, Constraint.activity_eq, ← sum_mergeTerms values c.terms, kept,
    sum_map_filter]
  congr 1
  refine List.map_congr_left ?_
  intro t ht
  by_cases hlarge : Scalar.tolerance < Scalar.abs t.2
  · rw [if_pos (decide_eq_true hlarge)]
  -- an integer as small as the tolerance is zero, and so is its share
  · rw [if_neg (by rwa [decide_eq_true_iff])]
    have hint := isInteger_mergeTerms h t ht
    rw [Scalar.abs_rat] at hlarge
    obtain ⟨hlow, hhigh⟩ := abs_le.mp (not_lt.mp hlarge)
    have hneg : IsInteger (-t.2) := by
      have hsub := IsInteger.zero.sub hint
      rwa [zero_sub] at hsub
    have hzero : t.2 = 0 := by linarith [hint.nonpos hhigh, hneg.nonpos (by linarith)]
    unfold termShare
    rw [hzero]
    split <;> rfl

/-- **INTEGRAL PROGRAMS MEAN THEIR CONSTRAINTS**: a program made of integral constraints is
    solved by the values that satisfy all of them exactly. -/
theorem isFeasible_ofParts_iff {vars : List (Variable Rat)} {cs : List (Constraint Rat)}
    (h : ∀ c ∈ cs, c.IsIntegral) (values : Array Bool) :
    (ofParts vars cs).isFeasible values = true
      ↔ values.size = vars.length ∧ ∀ c ∈ cs, c.Holds values := by
  have hkept : ∀ c ∈ cs, (kept c).isSatisfied values = true ↔ c.Holds values := by
    intro c hc
    have hactivity := activity_kept (h c hc).coefficient values
    rw [← (h c hc).isSatisfied_iff_holds, Constraint.isSatisfied_iff, Constraint.isSatisfied_iff,
      hactivity]
    exact Iff.rfl
  rw [ofParts_eq, isFeasible, Bool.and_eq_true, beq_iff_eq, List.all_eq_true]
  constructor
  · rintro ⟨hsize, hall⟩
    exact ⟨hsize, fun c hc => (hkept c hc).mp (hall _ (List.mem_map_of_mem hc))⟩
  · rintro ⟨hsize, hall⟩
    refine ⟨hsize, ?_⟩
    intro d hd
    obtain ⟨c, hc, rfl⟩ := List.mem_map.mp hd
    exact (hkept c hc).mpr (hall c hc)

end Program

end IndexDesign.ZeroOne
