import IndexDesign.Proofs.ZeroOne.Integral
import IndexDesign.Selection.Problem

/-! # Choices — one plan out of several, by consecutive variables

    A choice has one variable for each of its plans.  Values of the variables
    take one plan where exactly one of the variables is true, and then the
    count of the true ones is one and their cost is that of the plan; they take
    none where all are false, and then both are zero.  Conversely the count
    alone tells which of the two it is, which is all that the constraints of a
    selection problem say about plans.

    Choices whose variables follow each other can be given their values one by
    one: the values of a list of choices are the values of each, in order. -/

namespace IndexDesign

variable {β : Type}

/-! ## Sums over numbered lists -/

/-- The sum over a numbered list, counting the elements whose number is true. -/
def sumTrue (f : β → Rat) (value : Nat → Bool) (xs : List β) (first : Nat) : Rat :=
  ((xs.zipIdx first).map fun t => if value t.2 then f t.1 else 0).sum

theorem sumTrue_cons (f : β → Rat) (value : Nat → Bool) (x : β) (xs : List β) (first : Nat) :
    sumTrue f value (x :: xs) first
      = (if value first then f x else 0) + sumTrue f value xs (first + 1) := rfl

theorem sumTrue_append (f : β → Rat) (value : Nat → Bool) (xs ys : List β) (first : Nat) :
    sumTrue f value (xs ++ ys) first
      = sumTrue f value xs first + sumTrue f value ys (first + xs.length) := by
  unfold sumTrue
  rw [List.zipIdx_append, List.map_append, List.sum_append]

/-- The sum depends on the terms only. -/
theorem sumTrue_of_map_eq {γ : Type} {f : β → Rat} {g : γ → Rat} {xs : List β} {ys : List γ}
    (h : xs.map f = ys.map g) (value : Nat → Bool) (first : Nat) :
    sumTrue f value xs first = sumTrue g value ys first := by
  have hid : ∀ {δ : Type} (k : δ → Rat) (zs : List δ),
      sumTrue k value zs first = sumTrue id value (zs.map k) first := by
    intro δ k zs
    unfold sumTrue
    rw [List.zipIdx_map, List.map_map]
    rfl
  rw [hid f xs, hid g ys, h]

theorem sumTrue_range (f : Nat → Rat) (value : Nat → Bool) (n : Nat) :
    sumTrue f value (List.range n) 0 = ∑ v ∈ Finset.range n, if value v then f v else 0 := by
  have hlist : (List.range n).zipIdx.map (fun t => if value t.2 then f t.1 else 0)
      = (List.range n).map fun v => if value v then f v else 0 := by
    refine List.ext_getElem (by simp) ?_
    intro i hi hi'
    simp
  unfold sumTrue
  rw [hlist]
  rfl

theorem sumTrue_succ (f : β → Rat) (value : Nat → Bool) (xs : List β) (first : Nat) :
    sumTrue f value xs (first + 1) = sumTrue f (fun v => value (v + 1)) xs first := by
  unfold sumTrue
  rw [List.zipIdx_succ, List.map_map]
  rfl

/-- A list of values is paired with a list of terms by number. -/
theorem sum_zip_eq_sumTrue (f : β → Rat) (xs : List β) :
    ∀ bs : List Bool, ((xs.zip bs).map fun t => if t.2 then f t.1 else 0).sum
      = sumTrue f (bs.getD · false) xs 0 := by
  induction xs with
  | nil => intro bs; rfl
  | cons x xs ih =>
      intro bs
      cases bs with
      | nil =>
          refine Eq.symm (List.sum_eq_zero ?_)
          intro y hy
          obtain ⟨t, -, rfl⟩ := List.mem_map.mp hy
          exact if_neg Bool.false_ne_true
      | cons b bs =>
          rw [List.zip_cons_cons, List.map_cons, List.sum_cons, ih bs, sumTrue_cons,
            sumTrue_succ]
          rfl

/-- The sum depends on the values of its own numbers only. -/
theorem sumTrue_congr {f : β → Rat} {value other : Nat → Bool} {xs : List β} {first : Nat}
    (h : ∀ i, i < xs.length → value (first + i) = other (first + i)) :
    sumTrue f value xs first = sumTrue f other xs first := by
  refine congrArg List.sum (List.map_congr_left fun t ht => ?_)
  obtain ⟨hle, hx⟩ := List.mk_mem_zipIdx_iff_le_and_getElem?_sub.mp ht
  have hvalue := h (t.2 - first) (List.getElem?_eq_some_iff.mp hx).1
  rw [Nat.add_sub_cancel' hle] at hvalue
  rw [hvalue]

/-- The numbers of a list from `first` on are all false. -/
def NoneTrue (value : Nat → Bool) (first count : Nat) : Prop :=
  ∀ i, i < count → value (first + i) = false

/-- Of the numbers of a list from `first` on, only that of position `j` is true. -/
def OnlyTrue (value : Nat → Bool) (first count j : Nat) : Prop :=
  j < count ∧ ∀ i, i < count → (value (first + i) = true ↔ i = j)

theorem NoneTrue.tail {value : Nat → Bool} {first count : Nat}
    (h : NoneTrue value first (count + 1)) : NoneTrue value (first + 1) count := by
  intro i hi
  have hnext := h (i + 1) (Nat.succ_lt_succ hi)
  rwa [Nat.add_right_comm, Nat.add_assoc]

theorem sumTrue_of_noneTrue (f : β → Rat) {value : Nat → Bool} (xs : List β) :
    ∀ first, NoneTrue value first xs.length → sumTrue f value xs first = 0 := by
  induction xs with
  | nil => intro first _; rfl
  | cons x xs ih =>
      intro first h
      have hhead : value first = false := h 0 (Nat.succ_pos _)
      rw [sumTrue_cons, hhead, ih (first + 1) h.tail]
      exact zero_add 0

theorem sumTrue_of_onlyTrue (f : β → Rat) {value : Nat → Bool} (xs : List β) :
    ∀ first j, OnlyTrue value first xs.length j →
      ∃ x, xs[j]? = some x ∧ sumTrue f value xs first = f x := by
  induction xs with
  | nil => intro first j h; exact absurd h.1 (Nat.not_lt_zero j)
  | cons x xs ih =>
      intro first j h
      rw [sumTrue_cons]
      cases j with
      | zero =>
          refine ⟨x, rfl, ?_⟩
          have hhead : value first = true := (h.2 0 (Nat.succ_pos _)).mpr rfl
          have htail : NoneTrue value (first + 1) xs.length := by
            intro i hi
            rw [Nat.add_assoc, Nat.add_comm 1 i]
            refine Bool.eq_false_iff.mpr fun htrue => ?_
            exact nomatch (h.2 (i + 1) (Nat.succ_lt_succ hi)).mp htrue
          rw [if_pos hhead, sumTrue_of_noneTrue f xs (first + 1) htail, add_zero]
      | succ j =>
          have hhead : ¬ value first = true := fun htrue =>
            nomatch (h.2 0 (Nat.succ_pos _)).mp htrue
          have htail : OnlyTrue value (first + 1) xs.length j := by
            refine ⟨Nat.lt_of_succ_lt_succ h.1, ?_⟩
            intro i hi
            rw [Nat.add_assoc, Nat.add_comm 1 i, h.2 (i + 1) (Nat.succ_lt_succ hi)]
            exact Nat.succ_inj
          obtain ⟨y, hy, hsum⟩ := ih (first + 1) j htail
          refine ⟨y, hy, ?_⟩
          rw [if_neg hhead, hsum, zero_add]

/-- The number of true elements of a numbered list. -/
def countTrue (value : Nat → Bool) (xs : List β) (first : Nat) : Rat :=
  sumTrue (fun _ => 1) value xs first

theorem countTrue_nonneg (value : Nat → Bool) (xs : List β) (first : Nat) :
    0 ≤ countTrue value xs first := by
  refine List.sum_nonneg ?_
  intro x hx
  obtain ⟨t, -, rfl⟩ := List.mem_map.mp hx
  dsimp only
  split
  · exact zero_le_one
  · exact le_refl 0

theorem noneTrue_of_countTrue {value : Nat → Bool} (xs : List β) :
    ∀ first, countTrue value xs first = 0 → NoneTrue value first xs.length := by
  induction xs with
  | nil => intro first _ i hi; exact absurd hi (Nat.not_lt_zero i)
  | cons x xs ih =>
      intro first h
      rw [countTrue, sumTrue_cons] at h
      have hrest := countTrue_nonneg value xs (first + 1)
      unfold countTrue at hrest
      cases hhead : value first with
      | true =>
          rw [if_pos hhead] at h
          linarith
      | false =>
          rw [if_neg (Bool.eq_false_iff.mp hhead), zero_add] at h
          intro i hi
          cases i with
          | zero => exact hhead
          | succ i =>
              have hnext := ih (first + 1) h i (Nat.lt_of_succ_lt_succ hi)
              rwa [Nat.add_assoc, Nat.add_comm 1 i] at hnext

theorem exists_onlyTrue_of_countTrue {value : Nat → Bool} (xs : List β) :
    ∀ first, countTrue value xs first = 1 → ∃ j, OnlyTrue value first xs.length j := by
  induction xs with
  | nil => intro first h; exact absurd h zero_ne_one
  | cons x xs ih =>
      intro first h
      rw [countTrue, sumTrue_cons] at h
      cases hhead : value first with
      | true =>
          rw [if_pos hhead] at h
          -- the first number is true already, so nothing is left for the others
          have hrest := noneTrue_of_countTrue xs (first + 1) (by unfold countTrue; linarith)
          refine ⟨0, Nat.succ_pos _, ?_⟩
          intro i hi
          cases i with
          | zero => exact ⟨fun _ => rfl, fun _ => hhead⟩
          | succ i =>
              have hnext := hrest i (Nat.lt_of_succ_lt_succ hi)
              rw [Nat.add_assoc, Nat.add_comm 1 i] at hnext
              rw [hnext]
              exact ⟨fun h => (nomatch h), fun h => (nomatch h)⟩
      | false =>
          rw [if_neg (Bool.eq_false_iff.mp hhead), zero_add] at h
          obtain ⟨j, hj, honly⟩ := ih (first + 1) h
          refine ⟨j + 1, Nat.succ_lt_succ hj, ?_⟩
          intro i hi
          cases i with
          | zero =>
              rw [Nat.add_zero, hhead]
              exact ⟨fun h => (nomatch h), fun h => (nomatch h)⟩
          | succ i =>
              have hnext := honly i (Nat.lt_of_succ_lt_succ hi)
              rw [Nat.add_assoc, Nat.add_comm 1 i] at hnext
              rw [hnext]
              exact Nat.succ_inj.symm

namespace Choice

/-! ## What values take -/

variable {c : Choice Rat} {value : Nat → Bool} {p : Plan Rat}

/-- The values take exactly the plan of a position, or no plan at all. -/
def Takes (c : Choice Rat) (value : Nat → Bool) : Option (Plan Rat) → Prop
  | none => NoneTrue value c.first c.plans.length
  | some p => ∃ j, OnlyTrue value c.first c.plans.length j ∧ c.plans[j]? = some p

/-- The number of plans that the values take. -/
def count (c : Choice Rat) (value : Nat → Bool) : Rat := countTrue value c.plans c.first

/-- The cost of the plans that the values take. -/
def cost (c : Choice Rat) (value : Nat → Bool) : Rat :=
  sumTrue Plan.attributedCost value c.plans c.first

theorem count_of_takes_none (h : c.Takes value none) : c.count value = 0 :=
  sumTrue_of_noneTrue (fun _ => 1) c.plans c.first h

theorem cost_of_takes_none (h : c.Takes value none) : c.cost value = 0 :=
  sumTrue_of_noneTrue _ c.plans c.first h

theorem count_of_takes_some (h : c.Takes value (some p)) : c.count value = 1 := by
  obtain ⟨j, honly, -⟩ := h
  obtain ⟨x, -, hsum⟩ := sumTrue_of_onlyTrue (fun _ => 1) c.plans c.first j honly
  exact hsum

theorem cost_of_takes_some (h : c.Takes value (some p)) : c.cost value = p.attributedCost := by
  obtain ⟨j, honly, hp⟩ := h
  obtain ⟨x, hx, hsum⟩ := sumTrue_of_onlyTrue Plan.attributedCost c.plans c.first j honly
  have hxp : x = p := Option.some.inj (hx.symm.trans hp)
  rw [← hxp]
  exact hsum

theorem mem_plans_of_takes (h : c.Takes value (some p)) : p ∈ c.plans := by
  obtain ⟨j, -, hp⟩ := h
  exact List.mem_of_getElem? hp

theorem takes_none_of_count (h : c.count value = 0) : c.Takes value none :=
  noneTrue_of_countTrue c.plans c.first h

theorem exists_takes_of_count (h : c.count value = 1) : ∃ p, c.Takes value (some p) := by
  obtain ⟨j, honly⟩ := exists_onlyTrue_of_countTrue c.plans c.first h
  exact ⟨c.plans.get ⟨j, honly.1⟩, j, honly, List.getElem?_eq_getElem honly.1⟩

/-- A plan whose variable is true is the plan that is taken. -/
theorem eq_of_takes (h : c.Takes value (some p)) {i : Nat} {q : Plan Rat}
    (hq : c.plans[i]? = some q) (htrue : value (c.first + i) = true) : q = p := by
  obtain ⟨j, honly, hp⟩ := h
  have hi : i < c.plans.length := (List.getElem?_eq_some_iff.mp hq).1
  rw [(honly.2 i hi).mp htrue, hp] at hq
  exact (Option.some.inj hq).symm

/-- Values take one plan at most. -/
theorem takes_unique {q : Plan Rat} (hp : c.Takes value (some p)) (hq : c.Takes value (some q)) :
    p = q := by
  obtain ⟨j, honly, hj⟩ := hp
  exact eq_of_takes hq hj ((honly.2 j honly.1).mpr rfl)

/-! ## Choices that follow each other -/

/-- The variables of the choices follow each other from a number on. -/
def Consecutive : Nat → List (Choice Rat) → Prop
  | _, [] => True
  | first, c :: rest => c.first = first ∧ Consecutive (first + c.plans.length) rest

theorem total_cons (c : Choice Rat) (cs : List (Choice Rat)) :
    total (c :: cs) = c.plans.length + total cs := rfl

theorem consecutive_append {cs ds : List (Choice Rat)} :
    ∀ first, Consecutive first cs → Consecutive (first + total cs) ds →
      Consecutive first (cs ++ ds) := by
  induction cs with
  | nil => intro first _ hds; exact hds
  | cons c cs ih =>
      intro first hcs hds
      refine ⟨hcs.1, ih _ hcs.2 ?_⟩
      rw [total_cons] at hds
      rwa [Nat.add_assoc]

theorem consecutive_number (costs : List (String × StatementCosts Rat)) :
    ∀ first, Consecutive first (number first costs) := by
  induction costs with
  | nil => intro first; trivial
  | cons t costs ih => intro first; exact ⟨rfl, ih _⟩

/-! ## Giving choices their values -/

/-- The values of a choice that take the plan of a position, or none. -/
def oneHot (count : Nat) (pick : Option Nat) : List Bool :=
  (List.range count).map fun i => pick == some i

/-- The values of choices, each with its pick. -/
def bits : List (Choice Rat × Option Nat) → List Bool
  | [] => []
  | (c, pick) :: rest => oneHot c.plans.length pick ++ bits rest

theorem length_bits (picks : List (Choice Rat × Option Nat)) :
    (bits picks).length = total (picks.map (·.1)) := by
  induction picks with
  | nil => rfl
  | cons t picks ih =>
      obtain ⟨c, pick⟩ := t
      rw [bits, List.length_append, ih, List.map_cons, total_cons, oneHot, List.length_map,
        List.length_range]

/-- Consecutive choices read back the values that they were given. -/
theorem value_bits {picks : List (Choice Rat × Option Nat)} :
    ∀ before : List Bool, Consecutive before.length (picks.map (·.1)) →
      ∀ t ∈ picks, ∀ i, i < t.1.plans.length →
        (before ++ bits picks).getD (t.1.first + i) false = (t.2 == some i) := by
  induction picks with
  | nil => intro before _ t ht; exact nomatch ht
  | cons s picks ih =>
      obtain ⟨c, pick⟩ := s
      intro before hcons t ht i hi
      obtain ⟨hfirst, hrest⟩ := hcons
      have hlength : (oneHot c.plans.length pick).length = c.plans.length := by
        rw [oneHot, List.length_map, List.length_range]
      rcases List.mem_cons.mp ht with rfl | ht
      · show (before ++ (oneHot c.plans.length pick ++ bits picks)).getD (c.first + i) false
          = (pick == some i)
        have hi' : i < (oneHot c.plans.length pick).length := hlength.symm ▸ hi
        rw [hfirst, List.getD_eq_getElem?_getD, List.getElem?_append_right (Nat.le_add_right _ _),
          Nat.add_sub_cancel_left, List.getElem?_append_left hi', oneHot, List.getElem?_map,
          List.getElem?_range hi]
        rfl
      · have hnext := ih (before ++ oneHot c.plans.length pick)
          (by rw [List.length_append, hlength]; exact hrest) t ht i hi
        -- the values of the first choice stand before those of the others
        rwa [List.append_assoc] at hnext

/-- A choice whose values are those of a pick takes that plan. -/
theorem takes_of_pick {j : Nat} (hp : c.plans[j]? = some p)
    (h : ∀ i, i < c.plans.length → value (c.first + i) = (some j == some i)) :
    c.Takes value (some p) := by
  refine ⟨j, ⟨(List.getElem?_eq_some_iff.mp hp).1, ?_⟩, hp⟩
  intro i hi
  rw [h i hi, beq_iff_eq, Option.some.injEq]
  exact eq_comm

theorem takes_none_of_pick
    (h : ∀ i, i < c.plans.length → value (c.first + i) = ((none : Option Nat) == some i)) :
    c.Takes value none := h

end Choice

end IndexDesign
