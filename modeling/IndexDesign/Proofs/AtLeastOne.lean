import IndexDesign.Proofs.Counts

/-! # Numbers of at least one

    Row counts and numbers of values are at least one, and so is what sizes are
    estimated from: the largest of several, their product, one cut to another.
    Of numbers of at least one little is asked, and both exact numbers and
    binary doubles have it: they are ordered, larger counts have larger
    numbers, and a product is at least one again. -/

namespace IndexDesign

/-- Numbers of at least one are ordered, larger counts have larger numbers, and products of
    numbers of at least one are at least one. -/
class Scalar.CountsOrdered (α : Type) [Scalar α] : Prop where
  ofCount_le : ∀ {m n : Nat}, 1 ≤ m → m ≤ n → (Scalar.ofCount m : α) ≤ Scalar.ofCount n
  one_le_mul : ∀ {x y : α}, Scalar.one ≤ x → Scalar.one ≤ y → Scalar.one ≤ x * y
  le_trans : ∀ {x y z : α}, Scalar.one ≤ x → Scalar.one ≤ y → Scalar.one ≤ z →
    x ≤ y → y ≤ z → x ≤ z
  le_of_lt : ∀ {x y : α}, Scalar.one ≤ x → Scalar.one ≤ y → x < y → x ≤ y
  le_of_not_lt : ∀ {x y : α}, Scalar.one ≤ x → Scalar.one ≤ y → ¬ x < y → y ≤ x
  max_eq : ∀ {x y : α}, Scalar.one ≤ x → Scalar.one ≤ y →
    Scalar.max x y = if x < y then y else x
  min_eq : ∀ {x y : α}, Scalar.one ≤ x → Scalar.one ≤ y →
    Scalar.min x y = if y < x then y else x

instance : Scalar.CountsOrdered Rat where
  ofCount_le _ h := by
    show ((_ : Nat) : Rat) ≤ ((_ : Nat) : Rat)
    exact_mod_cast h
  one_le_mul {x y} hx hy := by
    have hone : (Scalar.one : Rat) = 1 := Nat.cast_one
    rw [hone] at hx hy ⊢
    exact one_le_mul_of_one_le_of_one_le hx hy
  le_trans _ _ _ hxy hyz := Rat.le_trans hxy hyz
  le_of_lt _ _ h := Rat.le_of_lt h
  le_of_not_lt _ _ h := not_lt.mp h
  max_eq _ _ := rfl
  min_eq _ _ := rfl

namespace Scalar

variable {α : Type} [Scalar α] [CountsOrdered α] {x y high : α} {n : Nat}

theorem one_le_ofCount (h : 1 ≤ n) : (one : α) ≤ ofCount n := CountsOrdered.ofCount_le le_rfl h

theorem one_le_one : (one : α) ≤ one := one_le_ofCount le_rfl

theorem le_refl_of_one_le (h : one ≤ x) : x ≤ x := by
  by_cases hlt : x < x
  · exact CountsOrdered.le_of_lt h h hlt
  · exact CountsOrdered.le_of_not_lt h h hlt

/-- The larger of two numbers is at least one, and at most what both are at most. -/
theorem max_spec (hx : one ≤ x) (hy : one ≤ y) :
    one ≤ Scalar.max x y ∧ ∀ bound, x ≤ bound → y ≤ bound → Scalar.max x y ≤ bound := by
  rw [CountsOrdered.max_eq hx hy]
  split
  · exact ⟨hy, fun _ _ hbound => hbound⟩
  · exact ⟨hx, fun _ hbound _ => hbound⟩

/-- The smaller of two numbers is at least one, and at most the first. -/
theorem min_spec (hx : one ≤ x) (hy : one ≤ y) :
    one ≤ Scalar.min x y ∧ Scalar.min x y ≤ x := by
  rw [CountsOrdered.min_eq hx hy]
  split
  · next hlt => exact ⟨hy, CountsOrdered.le_of_lt hy hx hlt⟩
  · exact ⟨hx, le_refl_of_one_le hx⟩

/-- What is moved between one and a number of at least one lies there. -/
theorem clamp_spec (hhigh : one ≤ high) (hx : one ≤ x) :
    one ≤ clamp one high x ∧ clamp one high x ≤ high := by
  have hraised : one ≤ (if x < one then one else x) := by
    split
    · exact one_le_one
    · exact hx
  simp only [clamp]
  generalize (if x < one then one else x) = raised at hraised ⊢
  split
  · exact ⟨hhigh, le_refl_of_one_le hhigh⟩
  · next hlt => exact ⟨hraised, CountsOrdered.le_of_not_lt hhigh hraised hlt⟩

/-- A product of numbers of at least one is at least one. -/
theorem one_le_product {xs : List α} (h : ∀ x ∈ xs, one ≤ x) : one ≤ product xs := by
  have hfold : ∀ start : α, one ≤ start → one ≤ xs.foldl (· * ·) start := by
    induction xs with
    | nil => intro start hstart; exact hstart
    | cons x xs ih =>
        intro start hstart
        obtain ⟨hx, hxs⟩ := List.forall_mem_cons.mp h
        exact ih hxs (start * x) (CountsOrdered.one_le_mul hstart hx)
  exact hfold one one_le_one

end Scalar

end IndexDesign
