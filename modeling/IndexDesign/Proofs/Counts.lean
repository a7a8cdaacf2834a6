import Mathlib
import IndexDesign.Scalar

/-! # Counts — numbers that compare with themselves

    Binary doubles are not ordered: what is not a number is not even at most
    itself.  The number of a count never is that, so where the designer
    compares rows with a limit that they have been set to or cut to, the
    comparison holds.  Exact numbers have this for nothing; for doubles it
    follows from how a count is rounded and packed. -/

namespace IndexDesign

/-- The number of a count is at most itself. -/
class Scalar.CountsCompare (α : Type) [Scalar α] : Prop where
  ofCount_le : ∀ n : Nat, (Scalar.ofCount n : α) ≤ Scalar.ofCount n

instance : Scalar.CountsCompare Rat := ⟨fun n => le_refl ((n : Nat) : Rat)⟩

/-- What is cut to the number of a count is at most that number. -/
class Scalar.CountsBound (α : Type) [Scalar α] : Prop where
  min_le : ∀ (x : α) (n : Nat), Scalar.min x (Scalar.ofCount n) ≤ Scalar.ofCount n

instance : Scalar.CountsBound Rat := ⟨fun x n => by
  show (if (n : Rat) < x then (n : Rat) else x) ≤ n
  split
  · exact le_refl _
  · next hle => exact not_lt.mp hle⟩

/-! ## Binary doubles -/

open Float.Model Float.Model.UnpackedFloat

/-- What is unpacked from components is a number, unless these encode the opposite. -/
theorem unpack_packComponents_ne {spec : Format} {sign : Sign}
    {exponent : BitVec spec.exponentBits}
    {mantissa : BitVec spec.mantissaBitsWithoutImplicit} (h : exponent ≠ -1#_ ∨ mantissa = 0#_) :
    UnpackedFloat.unpack spec (packComponents spec sign exponent mantissa) ≠ .notANumber := by
  -- only an exponent of ones with a mantissa other than zero is read as no number
  have hspec : ∀ b, UnpackedFloat.unpack spec b = .notANumber →
      unpackExponent b = -1#_ ∧ unpackMantissa b ≠ 0#_ := by
    intro b hb
    unfold UnpackedFloat.unpack at hb
    dsimp only at hb
    split at hb
    · next hexponent =>
      split at hb
      · exact nomatch hb
      · next hmantissa => exact ⟨hexponent, hmantissa⟩
    · split at hb
      · split at hb
        · exact nomatch hb
        · exact nomatch hb
      · exact nomatch hb
  intro hnan
  obtain ⟨hexponent, hmantissa⟩ := hspec _ hnan
  rw [unpackExponent_packComponents] at hexponent
  rw [unpackMantissa_packComponents] at hmantissa
  rcases h with h | h
  · exact h hexponent
  · exact hmantissa h

/-- Packing a number gives a number. -/
theorem unpack_pack_ne {spec : Format} {u : UnpackedFloat} (h : u ≠ .notANumber) :
    UnpackedFloat.unpack spec (UnpackedFloat.pack spec u) ≠ .notANumber := by
  have hones : ∀ n, n + 1 < 2 ^ spec.exponentBits →
      BitVec.ofNat spec.exponentBits n ≠ -1#_ := by
    intro n hn heq
    have hnat := congrArg BitVec.toNat heq
    rw [BitVec.neg_one_eq_allOnes, BitVec.toNat_allOnes, BitVec.toNat_ofNat,
      Nat.mod_eq_of_lt (by omega)] at hnat
    omega
  cases u with
  | notANumber => exact absurd rfl h
  | infinity s => exact unpack_packComponents_ne (.inr rfl)
  | zero s => exact unpack_packComponents_ne (.inr rfl)
  | finite s m e hm =>
      unfold UnpackedFloat.pack
      dsimp only
      split
      · exact unpack_packComponents_ne (.inr rfl)
      · next hsmall =>
        split
        -- a finite number that is packed has an exponent below the one of all ones
        · exact unpack_packComponents_ne (.inl (hones _ (by omega)))
        · have hbits := Nat.one_lt_two_pow (Nat.pos_iff_ne_zero.mp spec.he)
          exact unpack_packComponents_ne (.inl (hones 0 (by omega)))

theorem roundWithAccuracy_ne (spec : Format) (s : Sign) (m : Nat) (e : Int) (a : Accuracy) :
    UnpackedFloat.roundWithAccuracy spec s m e a ≠ .notANumber := by
  unfold UnpackedFloat.roundWithAccuracy
  dsimp only
  split
  · exact fun h => nomatch h
  · exact fun h => nomatch h

theorem normalize_ne (spec : Format) (m e : Int) (s : Sign) :
    UnpackedFloat.normalize spec m e s ≠ .notANumber := by
  unfold UnpackedFloat.normalize
  split
  · exact roundWithAccuracy_ne _ _ _ _ _
  · exact fun h => nomatch h
  · exact roundWithAccuracy_ne _ _ _ _ _

/-- A number times a finite one is a number. -/
theorem mul_finite_ne {u : UnpackedFloat} (h : u ≠ .notANumber) (spec : Format) (s : Sign)
    (m : Nat) (e : Int) (hm : 0 < m) :
    UnpackedFloat.mul spec u (.finite s m e hm) ≠ .notANumber := by
  cases u with
  | notANumber => exact absurd rfl h
  | infinity s => exact fun h => nomatch h
  | zero s => exact fun h => nomatch h
  | finite s m e hm => exact roundWithAccuracy_ne _ _ _ _ _

theorem ofScientific_ne (spec : Format) (m : Nat) (e : Int) :
    UnpackedFloat.ofScientific spec m e ≠ .notANumber := by
  unfold UnpackedFloat.ofScientific
  split
  · exact fun h => nomatch h
  · split
    · exact fun h => nomatch h
    · split
      · exact fun h => nomatch h
      · split
        · exact roundWithAccuracy_ne _ _ _ _ _
        · exact roundWithAccuracy_ne _ _ _ _ _

/-- The double of a count is a number. -/
theorem ofNat_ne (n : Nat) : (Float.ofNat n).toModel.unpack ≠ .notANumber := by
  show (Float.ofScientific n false 0).toModel.unpack ≠ .notANumber
  unfold Float.ofScientific
  split
  · -- a small count is multiplied by one, which is a finite double
    have hone : ∃ s m e hm, (Float.ofBits 0x3FF0000000000000).toModel.unpack
        = .finite s m e hm := ⟨_, _, _, _, rfl⟩
    obtain ⟨s, m, e, hm, hone⟩ := hone
    refine unpack_pack_ne ?_
    show UnpackedFloat.mul _ _ (Float.ofBits 0x3FF0000000000000).toModel.unpack ≠ _
    rw [hone]
    exact mul_finite_ne (unpack_pack_ne (normalize_ne _ _ _ _)) _ s m e hm
  · exact unpack_pack_ne (ofScientific_ne _ _ _)

theorem le_self_of_ne {u : UnpackedFloat} (h : u ≠ .notANumber) : u.le u = true := by
  cases u with
  | notANumber => exact absurd rfl h
  | infinity s => cases s <;> rfl
  | zero s => rfl
  | finite s m e hm =>
      have hcompare : (compare e e).then (compare m m) = .eq := by
        have hexponent : compare e e = .eq := Std.ReflCmp.compare_self
        have hmantissa : compare m m = .eq := Std.ReflCmp.compare_self
        rw [hexponent, hmantissa]
        rfl
      cases s with
      | positive =>
          show (some ((compare e e).then (compare m m))).any (·.isLE) = true
          rw [hcompare]
          rfl
      | negative =>
          show (some ((compare e e).then (compare m m)).swap).any (·.isLE) = true
          rw [hcompare]
          rfl

instance : Scalar.CountsCompare Float := ⟨fun n => by
  have hle : (Float.ofNat n).toModel.unpack.le (Float.ofNat n).toModel.unpack = true :=
    le_self_of_ne (ofNat_ne n)
  exact decide_eq_true hle⟩

theorem eq_notANumber_of_isNaN {u : UnpackedFloat} (h : u.isNaN = true) : u = .notANumber := by
  cases u with
  | notANumber => rfl
  | _ => exact nomatch h

theorem isLE_swap_of_ne {o : Ordering} (h : o ≠ .lt) : o.swap.isLE = true := by
  cases o with
  | lt => exact absurd rfl h
  | eq => rfl
  | gt => rfl

/-- Exponents and mantissas compare in reverse the other way round. -/
theorem compare_then_swap (e e' : Int) (m m' : Nat) :
    (compare e e').then (compare m m') = ((compare e' e).then (compare m' m)).swap := by
  rw [Ordering.swap_then, ← Std.OrientedCmp.eq_swap, ← Std.OrientedCmp.eq_swap]

/-- Of two numbers one is at most the other. -/
theorem le_of_not_lt {u v : UnpackedFloat} (hu : u ≠ .notANumber) (hv : v ≠ .notANumber)
    (h : ¬ v.lt u = true) : u.le v = true := by
  cases u with
  | notANumber => exact absurd rfl hu
  | infinity s =>
      cases v with
      | notANumber => exact absurd rfl hv
      | infinity s' =>
          revert h
          cases s <;> cases s' <;> decide
      | _ => cases s <;> simp_all [UnpackedFloat.le, UnpackedFloat.lt, UnpackedFloat.compare]
  | zero s =>
      cases v with
      | notANumber => exact absurd rfl hv
      | zero s' => rfl
      | _ s' => cases s' <;> simp_all [UnpackedFloat.le, UnpackedFloat.lt, UnpackedFloat.compare]
  | finite s m e hm =>
      cases v with
      | notANumber => exact absurd rfl hv
      | infinity s' => cases s' <;> simp_all [UnpackedFloat.le, UnpackedFloat.lt,
          UnpackedFloat.compare]
      | zero s' => cases s <;> simp_all [UnpackedFloat.le, UnpackedFloat.lt, UnpackedFloat.compare]
      | finite s' m' e' hm' =>
          have hne : ∀ o : Ordering, ¬ (some o == some Ordering.lt) = true → o ≠ .lt := by
            intro o ho heq
            exact ho (by rw [heq]; rfl)
          cases s with
          | positive =>
              cases s' with
              | negative => exact absurd rfl h
              | positive =>
                  show ((compare e e').then (compare m m')).isLE = true
                  rw [compare_then_swap]
                  exact isLE_swap_of_ne (hne _ h)
          | negative =>
              cases s' with
              | positive => rfl
              | negative =>
                  show ((compare e e').then (compare m m')).swap.isLE = true
                  refine isLE_swap_of_ne ?_
                  rw [compare_then_swap]
                  exact hne _ h

instance : Scalar.CountsBound Float := ⟨fun x n => by
  show (if x.isNaN then Float.ofNat n else if (Float.ofNat n).isNaN then x
    else if Float.ofNat n < x then Float.ofNat n else x) ≤ Float.ofNat n
  have hcount := ofNat_ne n
  have hself : Float.ofNat n ≤ Float.ofNat n := Scalar.CountsCompare.ofCount_le (α := Float) n
  split
  · exact hself
  · next hx =>
    split
    · next hnan => exact absurd (eq_notANumber_of_isNaN hnan) hcount
    · split
      · exact hself
      · next hlt =>
        refine decide_eq_true (le_of_not_lt ?_ hcount fun h => hlt (decide_eq_true h))
        intro hnan
        exact hx (show UnpackedFloat.isNaN _ = true by rw [hnan]; rfl)⟩

end IndexDesign
