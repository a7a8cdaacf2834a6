import IndexDesign.Proofs.ZeroOne.Completion

/-! # Activities — what a constraint can reach over all completions

    In exact numbers the activity of a constraint is a sum over its terms.  The
    least and the greatest activity of a partial assignment bound the activity
    of every completion term by term, so one term that is off its bound moves
    the whole activity by as much.  That is why a single free variable can be
    judged by the activities at the start of a pass: no other variable of the
    constraint, assigned since or not, can make up for it. -/

namespace IndexDesign.ZeroOne

/-! ## Sums over terms -/

/-- The share of a term in the activity. -/
def termShare (values : Array Bool) (t : Nat × Rat) : Rat :=
  if values.getD t.1 false then t.2 else 0

/-- The share of a term in an activity that counts free variables by `share`. -/
def boundShare (share : Rat → Rat) (p : Partial) (t : Nat × Rat) : Rat :=
  match p.value t.1 with
  | some true => t.2
  | some false => 0
  | none => share t.2

namespace Constraint

theorem activity_eq (c : Constraint Rat) (values : Array Bool) :
    c.activity values = (c.terms.map (termShare values)).sum := by
  rw [activity, Scalar.sum_rat]
  exact sum_map_filter (·.2) (fun t => values.getD t.1 false) c.terms

theorem activityWith_eq (share : Rat → Rat) (c : Constraint Rat) (p : Partial) :
    c.activityWith share p = (c.terms.map (boundShare share p)).sum := by
  have hfold : ∀ (ts : List (Nat × Rat)) (start : Rat),
      ts.foldl (fun sum (v, x) =>
        match p.value v with
        | some true => sum + x
        | some false => sum
        | none => sum + share x) start = start + (ts.map (boundShare share p)).sum := by
    intro ts
    induction ts with
    | nil => intro start; simp
    | cons t ts ih =>
        intro start
        obtain ⟨v, x⟩ := t
        rw [List.foldl_cons, ih, List.map_cons, List.sum_cons, ← add_assoc]
        congr 1
        unfold boundShare
        dsimp only
        cases p.value v with
        | none => rfl
        | some b =>
            cases b with
            | false => exact (add_zero start).symm
            | true => rfl
  have h := hfold c.terms Scalar.zero
  rw [Scalar.zero_rat, zero_add] at h
  exact h

/-! ## Bounds over completions -/

variable {c : Constraint Rat} {p : Partial} {values : Array Bool}

theorem boundShare_min_le (h : p.Completes values) (t : Nat × Rat) :
    boundShare (Scalar.min · Scalar.zero) p t ≤ termShare values t := by
  unfold boundShare termShare
  cases hp : p.value t.1 with
  | none =>
      simp only [Scalar.min_rat, Scalar.zero_rat]
      split
      · exact min_le_left _ _
      · exact min_le_right _ _
  | some b => cases b <;> simp [h.agrees _ _ hp]

theorem le_boundShare_max (h : p.Completes values) (t : Nat × Rat) :
    termShare values t ≤ boundShare (Scalar.max · Scalar.zero) p t := by
  unfold boundShare termShare
  cases hp : p.value t.1 with
  | none =>
      simp only [Scalar.max_rat, Scalar.zero_rat]
      split
      · exact le_max_left _ _
      · exact le_max_right _ _
  | some b => cases b <;> simp [h.agrees _ _ hp]

theorem leastActivity_le (h : p.Completes values) : c.leastActivity p ≤ c.activity values := by
  rw [leastActivity, activityWith_eq, activity_eq]
  exact List.sum_le_sum (fun t _ => boundShare_min_le h t)

theorem le_greatestActivity (h : p.Completes values) :
    c.activity values ≤ c.greatestActivity p := by
  rw [greatestActivity, activityWith_eq, activity_eq]
  exact List.sum_le_sum (fun t _ => le_boundShare_max h t)

/-- A free variable moves the activity of a completion up from the least: by its coefficient
    where it is true, by the negative of that where it is false. -/
theorem leastActivity_add_le (h : p.Completes values) {v : Nat} {x : Rat}
    (hmem : (v, x) ∈ c.terms) (hfree : p.isFree v = true) :
    c.leastActivity p + (if values.getD v false then x ⊔ 0 else -x ⊔ 0) ≤ c.activity values := by
  rw [leastActivity, activityWith_eq, activity_eq]
  have hsum := sum_map_le_of_mem (fun t _ => boundShare_min_le h t) hmem
  -- the least activity has the lesser of the coefficient and zero for a free variable
  have hnone : boundShare (Scalar.min · Scalar.zero) p (v, x) = x ⊓ 0 := by
    simp [boundShare, Partial.value_eq_none_of_isFree hfree]
  have hshare : (if values.getD v false then x ⊔ 0 else -x ⊔ 0)
      = termShare values (v, x) - x ⊓ 0 := by
    unfold termShare
    split
    · linarith [min_add_max x 0]
    · rw [neg_max_zero, zero_sub]
  rw [hshare]
  rw [hnone] at hsum
  exact hsum

/-- A free variable moves the activity of a completion down from the greatest: by its
    coefficient where it is false, by the negative of that where it is true. -/
theorem activity_le_greatestActivity_sub (h : p.Completes values) {v : Nat} {x : Rat}
    (hmem : (v, x) ∈ c.terms) (hfree : p.isFree v = true) :
    c.activity values ≤ c.greatestActivity p - (if values.getD v false then -x ⊔ 0 else x ⊔ 0) := by
  rw [greatestActivity, activityWith_eq, activity_eq]
  have hsum := sum_map_le_of_mem (fun t _ => le_boundShare_max h t) hmem
  have hnone : boundShare (Scalar.max · Scalar.zero) p (v, x) = x ⊔ 0 := by
    simp [boundShare, Partial.value_eq_none_of_isFree hfree]
  have hshare : (if values.getD v false then -x ⊔ 0 else x ⊔ 0)
      = x ⊔ 0 - termShare values (v, x) := by
    unfold termShare
    split
    · linarith [min_add_max x 0, neg_max_zero x]
    · exact (sub_zero _).symm
  rw [hshare]
  rw [hnone] at hsum
  linarith

/-! ## Satisfaction by activities -/

theorem exceeds_iff (a : Rat) :
    c.exceeds a = true ↔ c.sense.isUpper = true ∧ c.bound + Scalar.tolerance < a := by
  rw [exceeds, Bool.and_eq_true, decide_eq_true_iff]

theorem fallsShort_iff (a : Rat) :
    c.fallsShort a = true ↔ c.sense.isLower = true ∧ a < c.bound - Scalar.tolerance := by
  rw [fallsShort, Bool.and_eq_true, decide_eq_true_iff]

/-- A constraint holds where its activity is neither too large nor too small. -/
theorem isSatisfied_iff (c : Constraint Rat) (values : Array Bool) :
    c.isSatisfied values = true
      ↔ c.exceeds (c.activity values) = false ∧ c.fallsShort (c.activity values) = false := by
  rw [← Bool.not_eq_true, ← Bool.not_eq_true, exceeds_iff, fallsShort_iff]
  unfold isSatisfied
  cases c.sense with
  | atMost =>
      show decide (c.activity values ≤ c.bound + Scalar.tolerance) = true
        ↔ ¬ (true = true ∧ _) ∧ ¬ (false = true ∧ _)
      rw [decide_eq_true_iff]
      constructor
      · intro h
        exact ⟨fun h' => absurd h'.2 (not_lt.mpr h), fun h' => nomatch h'.1⟩
      · intro h
        exact not_lt.mp fun hlt => h.1 ⟨rfl, hlt⟩
  | exactly =>
      show decide (Scalar.abs (c.activity values - c.bound) ≤ Scalar.tolerance) = true
        ↔ ¬ (true = true ∧ _) ∧ ¬ (true = true ∧ _)
      rw [decide_eq_true_iff, Scalar.abs_rat]
      constructor
      · intro h
        obtain ⟨hlow, hhigh⟩ := abs_le.mp h
        refine ⟨?_, ?_⟩
        · rintro ⟨-, hlt⟩
          linarith
        · rintro ⟨-, hlt⟩
          linarith
      · intro h
        have hhigh := not_lt.mp fun hlt => h.1 ⟨rfl, hlt⟩
        have hlow := not_lt.mp fun hlt => h.2 ⟨rfl, hlt⟩
        exact abs_le.mpr ⟨by linarith, by linarith⟩
  | atLeast =>
      show decide (c.bound - Scalar.tolerance ≤ c.activity values) = true
        ↔ ¬ (false = true ∧ _) ∧ ¬ (true = true ∧ _)
      rw [decide_eq_true_iff]
      constructor
      · intro h
        exact ⟨fun h' => (nomatch h'.1), fun h' => absurd h'.2 (not_lt.mpr h)⟩
      · intro h
        exact not_lt.mp fun hlt => h.2 ⟨rfl, hlt⟩

theorem exceeds_mono {a b : Rat} (hab : a ≤ b) (h : c.exceeds a = true) :
    c.exceeds b = true := by
  rw [exceeds_iff] at h ⊢
  exact ⟨h.1, lt_of_lt_of_le h.2 hab⟩

theorem fallsShort_anti {a b : Rat} (hab : a ≤ b) (h : c.fallsShort b = true) :
    c.fallsShort a = true := by
  rw [fallsShort_iff] at h ⊢
  exact ⟨h.1, lt_of_le_of_lt hab h.2⟩

end Constraint

/-! ## Solutions -/

namespace Program

variable {m : Program Rat} {values : Array Bool}

theorem size_of_isFeasible (h : m.isFeasible values = true) : values.size = m.vars.size :=
  beq_iff_eq.mp ((Bool.and_eq_true _ _).mp h).1

theorem isSatisfied_of_isFeasible (h : m.isFeasible values = true) :
    ∀ c ∈ m.constraints, c.isSatisfied values = true :=
  List.all_eq_true.mp ((Bool.and_eq_true _ _).mp h).2

end Program

end IndexDesign.ZeroOne
