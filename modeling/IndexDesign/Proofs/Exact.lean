import Mathlib
import IndexDesign.Scalar

/-! # Exact numbers — the operations of `Rat` in their usual form

    The generic definitions are stated with the operations of `Scalar`.  At
    `Rat` each of these is the ordinary operation, and a left fold is the sum
    of its list, so that laws of ordered fields apply. -/

namespace IndexDesign.Scalar

@[simp] theorem zero_rat : (Scalar.zero : Rat) = 0 := Nat.cast_zero

@[simp] theorem one_rat : (Scalar.one : Rat) = 1 := Nat.cast_one

@[simp] theorem tolerance_rat : (Scalar.tolerance : Rat) = 1 / 1000000000 := by
  show ((1 : Nat) : Rat) / ((10 ^ 9 : Nat) : Rat) = 1 / 1000000000
  norm_num

theorem tolerance_pos : (0 : Rat) < Scalar.tolerance := by
  rw [tolerance_rat]
  norm_num

@[simp] theorem isFinite_rat (x : Rat) : Scalar.isFinite x = true := rfl

@[simp] theorem min_rat (a b : Rat) : Scalar.min a b = a ⊓ b := by
  show (if b < a then b else a) = a ⊓ b
  rw [min_def]
  split <;> split <;> linarith

@[simp] theorem max_rat (a b : Rat) : Scalar.max a b = a ⊔ b := by
  show (if a < b then b else a) = a ⊔ b
  rw [max_def]
  split <;> split <;> linarith

@[simp] theorem abs_rat (a : Rat) : Scalar.abs a = |a| := by
  show (if a < 0 then -a else a) = |a|
  by_cases h : a < 0
  · rw [if_pos h, abs_of_neg h]
  · rw [if_neg h, abs_of_nonneg (not_lt.mp h)]

theorem totalLE_rat {a b : Rat} : Scalar.totalLE a b = true ↔ a ≤ b := decide_eq_true_iff

/-- A sum is the sum of its list. -/
@[simp] theorem sum_rat (xs : List Rat) : Scalar.sum xs = xs.sum := by
  rw [List.sum_eq_foldl]
  rfl

/-- A fold that adds the elements adds their sum to its start. -/
theorem foldl_add_rat (xs : List Rat) (start : Rat) :
    xs.foldl (fun x y => x + y) start = start + xs.sum := by
  induction xs generalizing start with
  | nil => simp
  | cons x xs ih =>
      rw [List.foldl_cons, ih, List.sum_cons]
      exact add_assoc start x xs.sum

end IndexDesign.Scalar

namespace IndexDesign

variable {β : Type}

/-- Terms that a test drops count as zero. -/
theorem sum_map_filter (f : β → Rat) (keep : β → Bool) (xs : List β) :
    ((xs.filter keep).map f).sum = (xs.map fun x => if keep x then f x else 0).sum := by
  induction xs with
  | nil => rfl
  | cons x xs ih =>
      rw [List.map_cons, List.sum_cons, ← ih, List.filter_cons]
      by_cases hx : keep x = true
      · rw [if_pos hx, if_pos hx, List.map_cons, List.sum_cons]
      · rw [if_neg hx, if_neg hx, zero_add]

/-- Elements without a term count as zero. -/
theorem sum_filterMap (f : β → Option Rat) (xs : List β) :
    (xs.filterMap f).sum = (xs.map fun x => (f x).getD 0).sum := by
  induction xs with
  | nil => rfl
  | cons x xs ih =>
      rw [List.map_cons, List.sum_cons, ← ih]
      cases hx : f x with
      | none => rw [List.filterMap_cons_none hx]; exact (zero_add _).symm
      | some y => rw [List.filterMap_cons_some hx, List.sum_cons]; rfl

/-- A term-by-term bound holds of the sums, with the slack of any one term added. -/
theorem sum_map_le_of_mem {f g : β → Rat} {xs : List β} (hle : ∀ x ∈ xs, f x ≤ g x) {y : β}
    (hy : y ∈ xs) : (xs.map f).sum + (g y - f y) ≤ (xs.map g).sum := by
  induction xs with
  | nil => exact nomatch hy
  | cons x xs ih =>
      rw [List.map_cons, List.map_cons, List.sum_cons, List.sum_cons]
      have hx : f x ≤ g x := hle x (List.mem_cons_self ..)
      rcases List.mem_cons.mp hy with heq | hmem
      · subst heq
        have htail : (xs.map f).sum ≤ (xs.map g).sum :=
          List.sum_le_sum (fun z hz => hle z (List.mem_cons_of_mem _ hz))
        linarith
      · have htail := ih (fun z hz => hle z (List.mem_cons_of_mem _ hz)) hmem
        linarith

theorem neg_max_zero (x : Rat) : -x ⊔ 0 = -(x ⊓ 0) := by
  rcases le_total x 0 with h | h
  · rw [min_eq_left h, max_eq_left (by linarith)]
  · rw [min_eq_right h, max_eq_right (by linarith), neg_zero]

end IndexDesign
