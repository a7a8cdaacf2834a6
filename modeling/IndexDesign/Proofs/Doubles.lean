import IndexDesign.Proofs.AtLeastOne

/-! # Doubles of at least one

    Counts of rows, counts of values and what is computed from them are at least
    one.  There a double is infinite or has a mantissa of all 53 bits, so doubles
    are ordered by a place, their exponent before their mantissa, and
    consecutive doubles have consecutive places.

    Rounding takes a mantissa with more bits to the place of a double.  It shifts bits
    out and keeps apart the first of them and whether one of the others was set; no
    step of this exchanges two mantissas, so the double of a larger count is no
    smaller.  A mantissa that is rounded up to 54 bits has the place of the next
    exponent's first. -/

namespace IndexDesign

namespace Doubles

open Float.Model Float.Model.UnpackedFloat

/-! ## Rounding mantissas -/

/-- A mantissa with its two residual bits below it, as one number. -/
def withResidue (em : ExtendedMantissa) : Nat :=
  4 * em.mantissa + 2 * em.roundBit.toNat + em.stickyBit.toNat

variable {em em' : ExtendedMantissa}

theorem withResidue_shiftRightOne_le (h : withResidue em ≤ withResidue em') :
    withResidue em.shiftRightOne ≤ withResidue em'.shiftRightOne := by
  -- what is shifted out is at most one step of what stays
  have hshift : ∀ em : ExtendedMantissa, withResidue em.shiftRightOne
      = 2 * em.mantissa + (em.roundBit || em.stickyBit).toNat := by
    rintro ⟨m, r, s⟩
    have hbit : (m % 2 != 0).toNat = m % 2 := by
      rcases Nat.mod_two_eq_zero_or_one m with h | h
      · rw [h]; rfl
      · rw [h]; rfl
    simp only [withResidue, ExtendedMantissa.shiftRightOne, hbit]
    omega
  rw [hshift, hshift]
  obtain ⟨m, r, s⟩ := em
  obtain ⟨m', r', s'⟩ := em'
  revert h
  simp only [withResidue]
  cases r <;> cases s <;> cases r' <;> cases s' <;>
    simp only [Bool.toNat_true, Bool.toNat_false, Bool.or_true, Bool.or_false] <;> omega

theorem roundedMantissa_le (h : withResidue em ≤ withResidue em') :
    em.roundedMantissa ≤ em'.roundedMantissa := by
  obtain ⟨m, r, s⟩ := em
  obtain ⟨m', r', s'⟩ := em'
  revert h
  simp only [withResidue, ExtendedMantissa.roundedMantissa]
  cases r <;> cases s <;> cases r' <;> cases s' <;>
    simp only [ExtendedMantissa.accuracy, Accuracy.roundToNearestEven, Bool.toNat_true,
      Bool.toNat_false] <;> omega

/-- Rounding goes to the mantissa or to the next one. -/
theorem roundedMantissa_bounds (em : ExtendedMantissa) :
    em.mantissa ≤ em.roundedMantissa ∧ em.roundedMantissa ≤ em.mantissa + 1 := by
  obtain ⟨m, r, s⟩ := em
  simp only [ExtendedMantissa.roundedMantissa]
  cases r <;> cases s <;>
    simp only [ExtendedMantissa.accuracy, Accuracy.roundToNearestEven] <;> omega

/-- The mantissa after `k` bits have been shifted out. -/
def shifted (m k : Nat) : ExtendedMantissa :=
  ExtendedMantissa.ofMantissaAndAccuracy m .exact >>> k

/-- The mantissa to which `k` bits are rounded off. -/
def rounded (m k : Nat) : Nat := (shifted m k).roundedMantissa

variable {m m' k : Nat}

theorem shifted_succ (m k : Nat) : shifted m (k + 1) = (shifted m k).shiftRightOne := rfl

theorem mantissa_shifted (m k : Nat) : (shifted m k).mantissa = m / 2 ^ k := by
  induction k with
  | zero => exact (Nat.div_one m).symm
  | succ k ih =>
      rw [shifted_succ, Nat.pow_succ, ← Nat.div_div_eq_div_mul, ← ih]
      rfl

theorem rounded_le (k : Nat) (h : m ≤ m') : rounded m k ≤ rounded m' k := by
  refine roundedMantissa_le ?_
  induction k with
  | zero =>
      show 4 * m + 0 + 0 ≤ 4 * m' + 0 + 0
      omega
  | succ k ih => exact withResidue_shiftRightOne_le ih

theorem rounded_bounds (m k : Nat) : m / 2 ^ k ≤ rounded m k ∧ rounded m k ≤ m / 2 ^ k + 1 := by
  rw [← mantissa_shifted]
  exact roundedMantissa_bounds _

/-- Bits that are not set are shifted out without a trace. -/
theorem rounded_mul_two_pow (m k : Nat) : rounded (m * 2 ^ k) k = m := by
  have hshifted : ∀ k m, shifted (m * 2 ^ k) k = ⟨m, false, false⟩ := by
    intro k
    induction k with
    | zero => intro m; rw [Nat.pow_zero, Nat.mul_one]; rfl
    | succ k ih =>
        intro m
        rw [shifted_succ, Nat.pow_succ, Nat.mul_comm (2 ^ k) 2, ← Nat.mul_assoc, ih,
          ExtendedMantissa.shiftRightOne]
        simp
  rw [rounded, hshifted]
  rfl

theorem rounded_mem (hlow : 2 ^ (52 + k) ≤ m) (hhigh : m < 2 ^ (53 + k)) :
    2 ^ 52 ≤ rounded m k ∧ rounded m k ≤ 2 ^ 53 := by
  obtain ⟨hfloor, hceil⟩ := rounded_bounds m k
  have hle : 2 ^ 52 ≤ m / 2 ^ k := by
    rw [Nat.le_div_iff_mul_le (Nat.two_pow_pos k), ← Nat.pow_add]
    exact hlow
  have hlt : m / 2 ^ k < 2 ^ 53 := by
    rw [Nat.div_lt_iff_lt_mul (Nat.two_pow_pos k), ← Nat.pow_add]
    exact hhigh
  omega

/-! ## Places -/

/-- Infinite, or with a mantissa of all bits and an exponent between that of one and the largest. -/
def IsLarge : UnpackedFloat → Prop
  | .infinity .positive => True
  | .finite .positive m e _ => 2 ^ 52 ≤ m ∧ m < 2 ^ 53 ∧ -52 ≤ e ∧ e ≤ 971
  | _ => False

/-- The place of the infinite double, behind the finite ones. -/
def lastPlace : Int := 973 * 2 ^ 52

/-- The place of a large double. -/
def place : UnpackedFloat → Int
  | .finite _ m e _ => e * 2 ^ 52 + m
  | _ => lastPlace

variable {u v : UnpackedFloat}

theorem place_lt_lastPlace {m : Nat} {e : Int} {hm : 0 < m}
    (h : IsLarge (.finite .positive m e hm)) :
    place (.finite .positive m e hm) < lastPlace := by
  obtain ⟨-, hhigh, -, he⟩ := h
  simp only [place, lastPlace]
  omega

/-- Exponents before mantissas are places. -/
theorem compare_then_eq_compare {e e' : Int} (hlow : 2 ^ 52 ≤ m) (hhigh : m < 2 ^ 53)
    (hlow' : 2 ^ 52 ≤ m') (hhigh' : m' < 2 ^ 53) : (compare e e').then (compare m m')
      = compare (e * 2 ^ 52 + m) (e' * 2 ^ 52 + m') := by
  rcases lt_trichotomy e e' with he | rfl | he
  · have hplace : e * 2 ^ 52 + m < e' * 2 ^ 52 + m' := by omega
    rw [compare_lt_iff_lt.mpr he, compare_lt_iff_lt.mpr hplace]
    rfl
  · have hsame : compare e e = .eq := compare_eq_iff_eq.mpr rfl
    rw [hsame]
    rcases lt_trichotomy m m' with hm | rfl | hm
    · have hplace : e * 2 ^ 52 + m < e * 2 ^ 52 + m' := by omega
      rw [compare_lt_iff_lt.mpr hm, compare_lt_iff_lt.mpr hplace]
      rfl
    · rw [compare_eq_iff_eq.mpr rfl, compare_eq_iff_eq.mpr rfl]
      rfl
    · have hplace : e * 2 ^ 52 + m' < e * 2 ^ 52 + m := by omega
      rw [compare_gt_iff_gt.mpr hm, compare_gt_iff_gt.mpr hplace]
      rfl
  · have hplace : e' * 2 ^ 52 + m' < e * 2 ^ 52 + m := by omega
    rw [compare_gt_iff_gt.mpr he, compare_gt_iff_gt.mpr hplace]
    rfl

/-- Large doubles compare by their places. -/
theorem compare_of_isLarge (hu : IsLarge u) (hv : IsLarge v) :
    u.compare v = some (compare (place u) (place v)) := by
  match u, v, hu, hv with
  | .infinity .positive, .infinity .positive, _, _ =>
      have hsame : compare lastPlace lastPlace = .eq := compare_eq_iff_eq.mpr rfl
      exact congrArg some hsame.symm
  | .infinity .positive, .finite .positive m e hm, _, hv =>
      exact congrArg some (compare_gt_iff_gt.mpr (place_lt_lastPlace hv)).symm
  | .finite .positive m e hm, .infinity .positive, hu, _ =>
      exact congrArg some (compare_lt_iff_lt.mpr (place_lt_lastPlace hu)).symm
  | .finite .positive m e hm, .finite .positive m' e' hm', hu, hv =>
      obtain ⟨hlow, hhigh, -⟩ := hu
      obtain ⟨hlow', hhigh', -⟩ := hv
      exact congrArg some (compare_then_eq_compare hlow hhigh hlow' hhigh')

theorem le_iff_place (hu : IsLarge u) (hv : IsLarge v) : u.le v = true ↔ place u ≤ place v := by
  rw [UnpackedFloat.le, compare_of_isLarge hu hv, Option.any_some, Int.isLE_compare]

theorem lt_iff_place (hu : IsLarge u) (hv : IsLarge v) : u.lt v = true ↔ place u < place v := by
  rw [UnpackedFloat.lt, compare_of_isLarge hu hv, beq_iff_eq, Option.some.injEq,
    Int.compare_eq_lt]

/-! ## Packing -/

theorem toNat_one_append (b : BitVec 52) : (1#1 ++ b).toNat = 2 ^ 52 + b.toNat := by
  rw [BitVec.toNat_append, ← Nat.shiftLeft_add_eq_or_of_lt b.isLt, Nat.shiftLeft_eq]
  rfl

theorem sign_unpackSign_packComponents {exponent : BitVec 11} {mantissa : BitVec 52} :
    Sign.ofBitVec (unpackSign (packComponents .binary64 .positive exponent mantissa))
      = .positive := by
  have hsign : unpackSign (packComponents .binary64 .positive exponent mantissa) = 0#1 := by
    apply BitVec.eq_of_getLsbD_eq
    intro i hi
    obtain rfl : i = 0 := by omega
    simp only [unpackSign, packComponents, BitVec.getLsbD_cast, BitVec.getLsbD_extractLsb,
      BitVec.getLsbD_append, Sign.toBitVec]
    simp
  rw [hsign]
  rfl

/-- A mantissa that is unpacked has all bits, or the smallest exponent. -/
theorem bounds_of_unpack {b : BitVec Format.binary64.numBits} {s : Sign} {m : Nat} {e : Int}
    {hm : 0 < m} (h : UnpackedFloat.unpack .binary64 b = .finite s m e hm) :
    m < 2 ^ 53 ∧ e ≤ 971 ∧ (2 ^ 52 ≤ m ∨ e = -1074) := by
  have hmantissa : (unpackMantissa b).toNat < 2 ^ 52 := (unpackMantissa b).isLt
  have hbias : Format.binary64.exponentBias = 1023 := rfl
  unfold UnpackedFloat.unpack at h
  dsimp only at h
  rw [hbias] at h
  split at h
  · split at h
    · exact nomatch h
    · exact nomatch h
  · next hones =>
    have hexponent : (unpackExponent b).toNat < 2047 := by
      have hlt : (unpackExponent b).toNat < 2048 := (unpackExponent b).isLt
      have hne : (unpackExponent b).toNat ≠ 2047 := fun heq =>
        hones (BitVec.eq_of_toNat_eq heq)
      omega
    split at h
    · next hzero =>
      split at h
      · exact nomatch h
      · rw [UnpackedFloat.finite.injEq] at h
        obtain ⟨-, rfl, rfl⟩ := h
        have hexponent : (unpackExponent b).toNat = 0 := congrArg BitVec.toNat hzero
        rw [hexponent]
        omega
    · rw [UnpackedFloat.finite.injEq] at h
      obtain ⟨-, rfl, rfl⟩ := h
      rw [toNat_one_append]
      omega

/-- What is unpacked and at least one is large. -/
theorem isLarge_unpack {b : BitVec Format.binary64.numBits}
    (h : UnpackedFloat.le (.finite .positive (2 ^ 52) (-52) (by decide))
      (UnpackedFloat.unpack .binary64 b) = true) :
    IsLarge (UnpackedFloat.unpack .binary64 b) := by
  generalize hu : UnpackedFloat.unpack .binary64 b = u at h ⊢
  match u with
  | .notANumber => exact nomatch h
  | .infinity .positive => trivial
  | .infinity .negative => exact nomatch h
  | .zero _ => exact nomatch h
  | .finite .negative m e hm => exact nomatch h
  | .finite .positive m e hm =>
      obtain ⟨hhigh, he, hlow⟩ := bounds_of_unpack hu
      have hexponent : -52 ≤ e := by
        by_contra hlt
        have hcompare : compare (-52) e = .gt := compare_gt_iff_gt.mpr (by omega)
        change ((compare (-52) e).then (compare (2 ^ 52) m)).isLE = true at h
        rw [hcompare] at h
        exact nomatch h
      exact ⟨hlow.resolve_right (by omega), hhigh, hexponent, he⟩

/-- Packing keeps a large double, or gives the infinite one where its exponent is too large. -/
theorem unpack_pack_large {m : Nat} {e : Int} (hm : 0 < m) (hlow : 2 ^ 52 ≤ m)
    (hhigh : m < 2 ^ 53) (he : -52 ≤ e) :
    UnpackedFloat.unpack .binary64 (UnpackedFloat.pack .binary64 (.finite .positive m e hm))
      = if e ≤ 971 then .finite .positive m e hm else .infinity .positive := by
  have hlog : m.log2 = 52 := (Nat.log2_eq_iff (by omega)).mpr ⟨hlow, hhigh⟩
  have hbias : Format.binary64.exponentBias = 1023 := rfl
  unfold UnpackedFloat.pack
  dsimp only
  rw [hbias, hlog]
  by_cases hfits : e ≤ 971
  · obtain ⟨n, hn⟩ : ∃ n : Nat, e + (1023 : Nat) + (52 : Nat) = n := ⟨(e + 1075).toNat, by omega⟩
    rw [hn, Int.toNat_natCast]
    have hexponent : (BitVec.ofNat 11 n).toNat = n := by
      rw [BitVec.toNat_ofNat, Nat.mod_eq_of_lt (by omega)]
    have hones : BitVec.ofNat 11 n ≠ -1#11 := by
      intro heq
      have hnat : n = 2047 := hexponent.symm.trans (congrArg BitVec.toNat heq)
      omega
    have hzero : BitVec.ofNat 11 n ≠ 0#11 := by
      intro heq
      have hnat : n = 0 := hexponent.symm.trans (congrArg BitVec.toNat heq)
      omega
    have hmantissa : (1#1 ++ BitVec.ofNat 52 m).toNat = m := by
      rw [toNat_one_append, BitVec.toNat_ofNat]
      omega
    have hnormal : 52 + 1 = Format.binary64.mantissaBits := rfl
    rw [if_neg (by omega), if_pos hnormal, if_pos hfits]
    unfold UnpackedFloat.unpack
    simp only [unpackMantissa_packComponents, unpackExponent_packComponents,
      sign_unpackSign_packComponents, if_neg hones, if_neg hzero, hmantissa, hexponent, hbias]
    rw [UnpackedFloat.finite.injEq]
    exact ⟨rfl, rfl, by omega⟩
  · rw [if_pos (by omega), if_neg hfits]
    rfl

/-! ## Rounding -/

/-- The double is large and at the place, or infinite where the place is behind the last. -/
structure IsAt (x : Float.Model) (there : Int) : Prop where
  isLarge : IsLarge x.unpack
  place_eq : place x.unpack = min there lastPlace

theorem shiftToTargetExponent_eq {e : Int} (hlog : m.log2 = 52 + k) (he : -52 ≤ e + k) :
    shiftToTargetExponent .binary64 m e .exact = (shifted m k, e + k) := by
  have htarget : Format.binary64.targetExponent (totalExponent m e) = e + k := by
    have hbits : Format.binary64.mantissaBits = 53 := rfl
    have hmin : Format.binary64.minExponent = -1074 := rfl
    rw [Format.targetExponent, totalExponent, hlog, hbits, hmin]
    omega
  rw [shiftToTargetExponent, htarget, shiftToExponent]
  have hshift : (e + k - e).toNat = k := by omega
  rw [hshift]
  rfl

/-- Rounding goes to a double whose place is that of the rounded mantissa. -/
theorem exists_roundWithAccuracy_eq {e : Int} (hlow : 2 ^ (52 + k) ≤ m) (hhigh : m < 2 ^ (53 + k))
    (he : -52 ≤ e + k) : ∃ r t hr, roundWithAccuracy .binary64 .positive m e .exact
        = .finite .positive r t hr
      ∧ 2 ^ 52 ≤ r ∧ r < 2 ^ 53 ∧ -52 ≤ t ∧ t * 2 ^ 52 + r = (e + k) * 2 ^ 52 + rounded m k := by
  have hpos : m ≠ 0 := by
    have hpow := Nat.two_pow_pos (52 + k)
    omega
  have hlog : m.log2 = 52 + k :=
    (Nat.log2_eq_iff hpos).mpr ⟨hlow, by rw [Nat.add_right_comm]; exact hhigh⟩
  obtain ⟨hmin, hmax⟩ := rounded_mem hlow hhigh
  -- the second shift is for the mantissa that was rounded up to 54 bits
  obtain ⟨j, r, hlog', hr, hplace⟩ : ∃ j r, (rounded m k).log2 = 52 + j
      ∧ (rounded m k) / 2 ^ j = r ∧ 2 ^ 52 ≤ r ∧ r < 2 ^ 53
      ∧ (j : Int) * 2 ^ 52 + r = rounded m k := by
    rcases Nat.lt_or_eq_of_le hmax with hlt | heq
    · refine ⟨0, rounded m k, (Nat.log2_eq_iff (by omega)).mpr ⟨hmin, hlt⟩, Nat.div_one _, hmin,
        hlt, by omega⟩
    · rw [heq]
      exact ⟨1, 2 ^ 52, rfl, rfl, by decide, by decide, rfl⟩
  have hfirst := shiftToTargetExponent_eq hlog he
  have hsecond := shiftToTargetExponent_eq (e := e + k) hlog' (by omega)
  have hmantissa := mantissa_shifted (rounded m k) j
  rw [hr] at hmantissa
  refine ⟨r, e + k + j, by omega, ?_, hplace.1, hplace.2.1, by omega, by omega⟩
  rw [rounded] at hsecond hmantissa
  unfold roundWithAccuracy
  simp only [hfirst, hsecond, hmantissa]
  exact dif_neg (by omega)

/-- What is rounded to at least one is packed at its place. -/
theorem isAt_roundWithAccuracy {e : Int} (hlow : 2 ^ (52 + k) ≤ m) (hhigh : m < 2 ^ (53 + k))
    (he : -52 ≤ e + k) : IsAt (Float.Model.pack (roundWithAccuracy .binary64 .positive m e .exact))
      ((e + k) * 2 ^ 52 + rounded m k) := by
  obtain ⟨r, t, hr, heq, hrlow, hrhigh, ht, hplace⟩ := exists_roundWithAccuracy_eq hlow hhigh he
  have hunpack : (Float.Model.pack (roundWithAccuracy .binary64 .positive m e .exact)).unpack
      = if t ≤ 971 then .finite .positive r t hr else .infinity .positive := by
    rw [heq]
    exact unpack_pack_large hr hrlow hrhigh ht
  rw [← hplace]
  by_cases hfits : t ≤ 971
  · rw [if_pos hfits] at hunpack
    refine ⟨?_, ?_⟩
    · rw [hunpack]
      exact ⟨hrlow, hrhigh, ht, hfits⟩
    · rw [hunpack, place, lastPlace]
      omega
  · rw [if_neg hfits] at hunpack
    refine ⟨?_, ?_⟩
    · rw [hunpack]
      trivial
    · have hbehind : lastPlace ≤ t * 2 ^ 52 + r := by rw [lastPlace]; omega
      rw [hunpack]
      exact (min_eq_right hbehind).symm

/-! ## Products -/

variable {x y : Float.Model}

theorem two_pow_le_mul {m m' : Nat} (h : 2 ^ 52 ≤ m) (h' : 2 ^ 52 ≤ m') (hm : m < 2 ^ 53)
    (hm' : m' < 2 ^ 53) : 2 ^ 104 ≤ m * m' ∧ m * m' < 2 ^ 106 := by
  have hlow := Nat.mul_le_mul h h'
  have hhigh := Nat.mul_lt_mul'' hm hm'
  omega

theorem isLarge_infinity : IsLarge (Float.Model.pack (.infinity .positive)).unpack := trivial

/-- The product of large doubles is large. -/
theorem isLarge_mul (hx : IsLarge x.unpack) (hy : IsLarge y.unpack) :
    IsLarge (x.mul y).unpack := by
  rw [Float.Model.mul]
  generalize x.unpack = u at hx ⊢
  generalize y.unpack = v at hy ⊢
  match u, v, hx, hy with
  | .infinity .positive, .infinity .positive, _, _ => exact isLarge_infinity
  | .infinity .positive, .finite .positive _ _ _, _, _ => exact isLarge_infinity
  | .finite .positive _ _ _, .infinity .positive, _, _ => exact isLarge_infinity
  | .finite .positive m e _, .finite .positive m' e' _, hu, hv =>
      obtain ⟨hlow, hhigh, he, -⟩ := hu
      obtain ⟨hlow', hhigh', he', -⟩ := hv
      obtain ⟨hmin, hmax⟩ := two_pow_le_mul hlow hlow' hhigh hhigh'
      by_cases hbits : m * m' < 2 ^ 105
      · exact (isAt_roundWithAccuracy (k := 52) (e := e + e') hmin hbits (by omega)).isLarge
      · exact (isAt_roundWithAccuracy (k := 53) (e := e + e') (by omega) hmax (by omega)).isLarge

/-! ## Counts -/

theorem unpack_one : (Float.ofBits 0x3FF0000000000000).toModel.unpack
    = .finite .positive (2 ^ 52) (-52) (by decide) := rfl

/-- A product with one stays in its place. -/
theorem isAt_mul_one {there : Int} (h : IsAt x there) :
    IsAt (x.mul (Float.ofBits 0x3FF0000000000000).toModel) there := by
  obtain ⟨hlarge, hplace⟩ := h
  rw [Float.Model.mul, unpack_one]
  generalize x.unpack = u at hlarge hplace
  match u, hlarge with
  | .infinity .positive, _ => exact ⟨isLarge_infinity, hplace⟩
  | .finite .positive m e _, hu =>
      have hlt := place_lt_lastPlace hu
      obtain ⟨hlow, hhigh, he, -⟩ := hu
      have hround := isAt_roundWithAccuracy (m := m * 2 ^ 52) (e := e + -52) (k := 52)
        (by omega) (by omega) (by omega)
      have hsame : (e + -52 + (52 : Nat)) * 2 ^ 52 + rounded (m * 2 ^ 52) 52
          = place (.finite .positive m e (by omega)) := by
        rw [rounded_mul_two_pow, place]
        omega
      refine ⟨hround.isLarge, hround.place_eq.trans ?_⟩
      rw [hsame, ← hplace]
      exact min_eq_left hlt.le

/-- The place of the double of a count. -/
def countPlace (n : Nat) : Int := ((n.log2 : Int) - 52) * 2 ^ 52 + rounded (n * 2 ^ 53) (n.log2 + 1)

theorem two_pow_log2_le {n : Nat} (hn : 1 ≤ n) (k : Nat) :
    2 ^ (n.log2 + k) ≤ n * 2 ^ k ∧ n * 2 ^ k < 2 ^ (n.log2 + 1 + k) := by
  rw [Nat.pow_add, Nat.pow_add]
  exact ⟨Nat.mul_le_mul_right _ (Nat.log2_self_le (by omega)),
    Nat.mul_lt_mul_of_pos_right Nat.lt_log2_self (Nat.two_pow_pos k)⟩

/-- With 53 bits more, a count has as many bits as are rounded off it, and 53. -/
theorem count_mem {n : Nat} (hn : 1 ≤ n) :
    2 ^ (52 + (n.log2 + 1)) ≤ n * 2 ^ 53 ∧ n * 2 ^ 53 < 2 ^ (53 + (n.log2 + 1)) := by
  have hbits : 52 + (n.log2 + 1) = n.log2 + 53 := by omega
  have hbits' : 53 + (n.log2 + 1) = n.log2 + 1 + 53 := by omega
  rw [hbits, hbits']
  exact two_pow_log2_le hn 53

/-- Counts of at most 53 bits are doubles. -/
theorem isAt_ofUInt64 {n : Nat} (hn : 1 ≤ n) (hsmall : n < 2 ^ 53) :
    IsAt n.toUInt64.toFloat.toModel (countPlace n) := by
  have hlog : n.log2 ≤ 52 := by
    have hlt := (Nat.log2_lt (by omega)).mpr hsmall
    omega
  obtain ⟨j, hj⟩ : ∃ j, n.log2 + j = 52 := ⟨52 - n.log2, by omega⟩
  have hround : n.toUInt64.toFloat.toModel = Float.Model.pack
      (roundWithAccuracy .binary64 .positive (n * 2 ^ j) (-(j : Int)) .exact) := by
    have htoNat : n.toUInt64.toNat = n := Nat.mod_eq_of_lt (by omega)
    have htarget : Format.binary64.targetExponent (totalExponent n 0) = -(j : Int) := by
      have hbits : Format.binary64.mantissaBits = 53 := rfl
      have hmin : Format.binary64.minExponent = -1074 := rfl
      rw [Format.targetExponent, totalExponent, hbits, hmin]
      omega
    show Float.Model.pack (UnpackedFloat.normalize .binary64 (n.toUInt64.toNat : Int) 0 .positive)
      = _
    rw [htoNat, UnpackedFloat.normalize, compare_gt_iff_gt.mpr (by omega)]
    simp only [UnpackedFloat.round, Int.toNat_natCast, htarget, decreaseExponent]
    have hshift : (0 - -(j : Int)).toNat = j := by omega
    rw [hshift, Nat.shiftLeft_eq, zero_sub]
  obtain ⟨hlow, hhigh⟩ := two_pow_log2_le hn j
  have hat := isAt_roundWithAccuracy (k := 0) (e := -(j : Int)) (m := n * 2 ^ j)
    (by rw [Nat.add_zero, ← hj]; exact hlow)
    (by rw [show 53 + 0 = n.log2 + 1 + j by omega]; exact hhigh) (by omega)
  rw [← hround] at hat
  have hexact : rounded (n * 2 ^ 53) (n.log2 + 1) = n * 2 ^ j := by
    have hsplit : 53 = j + (n.log2 + 1) := by omega
    rw [hsplit, Nat.pow_add, ← Nat.mul_assoc, rounded_mul_two_pow]
  have hplace : (-(j : Int) + (0 : Nat)) * 2 ^ 52 + rounded (n * 2 ^ j) 0 = countPlace n := by
    have hsame : rounded (n * 2 ^ j) 0 = n * 2 ^ j := by
      have hzero := rounded_mul_two_pow (n * 2 ^ j) 0
      rwa [Nat.pow_zero, Nat.mul_one] at hzero
    rw [countPlace, hexact, hsame]
    omega
  rw [← hplace]
  exact hat

/-- A count of any size is rounded to a double. -/
theorem isAt_ofScientific {n : Nat} (hn : 1 ≤ n) :
    IsAt (Float.Model.ofScientific n 0) (countPlace n) := by
  have hround : Float.Model.ofScientific n 0 = Float.Model.pack
      (roundWithAccuracy .binary64 .positive (n * 2 ^ 53) (-53) .exact) := by
    have hbits : Format.binary64.mantissaBits = 53 := rfl
    have hbits' : Format.binary64.exponentBits = 11 := rfl
    rw [Float.Model.ofScientific, UnpackedFloat.ofScientific, dif_neg (by omega), hbits',
      if_neg (by omega), if_neg (by omega), if_pos (by omega)]
    show Float.Model.pack (roundWithAccuracy .binary64 .positive
      ((n <<< Format.binary64.mantissaBits) * 1) (-Format.binary64.mantissaBits + 0) .exact) = _
    rw [hbits, Nat.shiftLeft_eq, Nat.mul_one, add_zero]
    rfl
  obtain ⟨hlow, hhigh⟩ := count_mem hn
  have hat := isAt_roundWithAccuracy (e := -53) hlow hhigh (by omega)
  rw [← hround] at hat
  have hexponent : (-53 + (n.log2 + 1 : Nat) : Int) = n.log2 - 52 := by omega
  rw [hexponent] at hat
  exact hat

theorem isAt_ofNat {n : Nat} (hn : 1 ≤ n) : IsAt (Float.ofNat n).toModel (countPlace n) := by
  show IsAt (Float.ofScientific n false 0).toModel (countPlace n)
  unfold Float.ofScientific
  split
  · next hsmall => exact isAt_mul_one (isAt_ofUInt64 hn hsmall.1)
  · exact isAt_ofScientific hn

/-- Larger counts have later places. -/
theorem countPlace_le {m n : Nat} (hm : 1 ≤ m) (hle : m ≤ n) : countPlace m ≤ countPlace n := by
  have hlog : m.log2 ≤ n.log2 :=
    (Nat.le_log2 (by omega)).mpr ((Nat.log2_self_le (by omega)).trans hle)
  rw [countPlace, countPlace]
  rcases Nat.lt_or_eq_of_le hlog with hlt | heq
  -- the last place of one exponent is the first of the next
  · obtain ⟨hlow, hhigh⟩ := count_mem hm
    obtain ⟨hlow', hhigh'⟩ := count_mem (hm.trans hle)
    have hmax := (rounded_mem hlow hhigh).2
    have hmin := (rounded_mem hlow' hhigh').1
    omega
  · have hrounded := rounded_le (n.log2 + 1) (Nat.mul_le_mul_right (2 ^ 53) hle)
    rw [heq]
    omega

/-! ## The order of doubles -/

theorem isLarge_ofNat {n : Nat} (hn : 1 ≤ n) : IsLarge (Float.ofNat n).toModel.unpack :=
  (isAt_ofNat hn).isLarge

theorem unpack_ofNat_one : (Float.ofNat 1).toModel.unpack
    = .finite .positive (2 ^ 52) (-52) (by decide) := rfl

variable {p q : Float}

theorem le_iff : p ≤ q ↔ p.toModel.unpack.le q.toModel.unpack = true := decide_eq_true_iff

theorem lt_iff : p < q ↔ p.toModel.unpack.lt q.toModel.unpack = true := decide_eq_true_iff

/-- Doubles of at least one are large. -/
theorem isLarge_of_one_le (h : Scalar.one ≤ p) : IsLarge p.toModel.unpack := by
  have hle : (Float.ofNat 1).toModel.unpack.le p.toModel.unpack = true := le_iff.mp h
  rw [unpack_ofNat_one] at hle
  exact isLarge_unpack hle

/-- Large doubles are at least one. -/
theorem one_le_of_isLarge (h : IsLarge p.toModel.unpack) : Scalar.one ≤ p := by
  refine le_iff.mpr ((le_iff_place (isLarge_ofNat le_rfl) h).mpr ?_)
  rw [unpack_ofNat_one]
  generalize p.toModel.unpack = u at h
  match u, h with
  | .infinity .positive, _ => decide
  | .finite .positive m e _, hu =>
      obtain ⟨hlow, -, he, -⟩ := hu
      simp only [place]
      omega

/-- What is not a number is not at least one. -/
theorem isNaN_eq_false (h : Scalar.one ≤ p) : p.isNaN = false := by
  have hlarge := isLarge_of_one_le h
  show p.toModel.unpack.isNaN = false
  generalize p.toModel.unpack = u at hlarge
  match u, hlarge with
  | .infinity .positive, _ => rfl
  | .finite .positive _ _ _, _ => rfl

/-- Doubles of at least one are in the order of their places. -/
theorem le_iff_le_place (hp : Scalar.one ≤ p) (hq : Scalar.one ≤ q) :
    p ≤ q ↔ place p.toModel.unpack ≤ place q.toModel.unpack :=
  le_iff.trans (le_iff_place (isLarge_of_one_le hp) (isLarge_of_one_le hq))

theorem lt_iff_lt_place (hp : Scalar.one ≤ p) (hq : Scalar.one ≤ q) :
    p < q ↔ place p.toModel.unpack < place q.toModel.unpack :=
  lt_iff.trans (lt_iff_place (isLarge_of_one_le hp) (isLarge_of_one_le hq))

instance : Scalar.CountsOrdered Float where
  ofCount_le {m n} hm hle := by
    have hn := hm.trans hle
    refine le_iff.mpr ((le_iff_place (isLarge_ofNat hm) (isLarge_ofNat hn)).mpr ?_)
    rw [(isAt_ofNat hm).place_eq, (isAt_ofNat hn).place_eq]
    exact min_le_min_right _ (countPlace_le hm hle)
  one_le_mul hx hy := one_le_of_isLarge (isLarge_mul (isLarge_of_one_le hx) (isLarge_of_one_le hy))
  le_trans hx hy hz hxy hyz := by
    rw [le_iff_le_place hx hy] at hxy
    rw [le_iff_le_place hy hz] at hyz
    exact (le_iff_le_place hx hz).mpr (hxy.trans hyz)
  le_of_lt hx hy h := (le_iff_le_place hx hy).mpr ((lt_iff_lt_place hx hy).mp h).le
  le_of_not_lt hx hy h :=
    (le_iff_le_place hy hx).mpr (not_lt.mp fun hlt => h ((lt_iff_lt_place hx hy).mpr hlt))
  max_eq {x y} hx hy := by
    show (if x.isNaN then y else if y.isNaN then x else if x < y then y else x) = _
    rw [isNaN_eq_false hx, isNaN_eq_false hy]
    rfl
  min_eq {x y} hx hy := by
    show (if x.isNaN then y else if y.isNaN then x else if y < x then y else x) = _
    rw [isNaN_eq_false hx, isNaN_eq_false hy]
    rfl

end Doubles

end IndexDesign
