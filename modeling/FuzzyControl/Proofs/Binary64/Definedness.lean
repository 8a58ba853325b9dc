import FuzzyControl.Decimal.Numeral
import FuzzyControl.Proofs.Binary64.Arithmetic

/-! # Where results are defined

An operation on numbers is undefined only where zeros and infinities meet. So a product, a quotient or
a difference is defined if the factor, the divisor or the minuend is regular, that is finite and not
zero, and the other operand is a number at all. Powers of ten are regular as long as they are doubles,
and so a numeral is read as a number, whatever it is scaled by.
-/
namespace FuzzyControl

set_option autoImplicit false

namespace Binary64

open Float.Model Float.Model.UnpackedFloat

/-- Finite and not zero. -/
def regular : UnpackedFloat → Bool
  | .finite .. => true
  | _ => false

theorem isNaN_unpack_packComponents (s : Sign) {ev : BitVec 11} (mv : BitVec 52)
    (h : ev ≠ -1#11) :
    (UnpackedFloat.unpack .binary64 (packComponents .binary64 s ev mv)).isNaN = false := by
  rw [UnpackedFloat.unpack]
  simp only [unpackExponent_packComponents, if_neg h]
  split_ifs <;> rfl

theorem isNaN_unpack_pack (u : UnpackedFloat) : (Float.Model.pack u).unpack.isNaN = u.isNaN := by
  cases u with
  | notANumber => rfl
  | infinity s => cases s <;> rfl
  | zero s => cases s <;> rfl
  | finite s m e hm =>
    change (UnpackedFloat.unpack .binary64 (UnpackedFloat.pack .binary64 _)).isNaN = false
    rw [UnpackedFloat.pack]
    simp only
    split_ifs with hOver hNormal
    · cases s <;> rfl
    · refine isNaN_unpack_packComponents s _ fun hOnes => ?_
      have hBits := congrArg BitVec.toNat hOnes
      rw [BitVec.toNat_ofNat] at hBits
      change _ = 2047 at hBits
      omega
    · exact isNaN_unpack_packComponents s _ (by decide)

theorem isNaN_roundWithAccuracy (s : Sign) (m : ℕ) (e : ℤ) (a : Accuracy) :
    (roundWithAccuracy .binary64 s m e a).isNaN = false := by
  rw [roundWithAccuracy]
  dsimp only
  split_ifs <;> rfl

/-- What lies between one and the greatest double does so when it is rounded. -/
theorem regular_roundWithAccuracy (s : Sign) {m : ℕ} {e : ℤ} (he : e ≤ lastPlace (m * 2 ^ e))
    (hLow : (1 : ℝ) ≤ m * 2 ^ e) (hHigh : (m : ℝ) * 2 ^ e ≤ (2 ^ 53 - 1 : ℤ) * 2 ^ (971 : ℤ)) :
    regular (Float.Model.pack (roundWithAccuracy .binary64 s m e .exact)).unpack = true := by
  have hm : 0 < m := by
    rw [Nat.pos_iff_ne_zero]
    rintro rfl
    norm_num at hLow
  obtain ⟨n, f, hFits, hValue, hRound⟩ := roundWithAccuracy_spec s hm he
  have hOne : (1 : ℝ) ≤ n * 2 ^ f := by
    calc
      (1 : ℝ) = nearest 1 := (nearest_eq_self ⟨1, 0, by norm_num, by norm_num, by norm_num⟩).symm
      _ ≤ nearest (m * 2 ^ e) := nearest_mono hLow
      _ = n * 2 ^ f := hValue.symm
  have hLargest : (n : ℝ) * 2 ^ f ≤ (2 ^ 53 - 1 : ℤ) * 2 ^ (971 : ℤ) := by
    calc
      (n : ℝ) * 2 ^ f = nearest (m * 2 ^ e) := hValue
      _ ≤ nearest ((2 ^ 53 - 1 : ℤ) * 2 ^ (971 : ℤ)) := nearest_mono hHigh
      _ = (2 ^ 53 - 1 : ℤ) * 2 ^ (971 : ℤ) :=
        nearest_eq_self ⟨2 ^ 53 - 1, 971, by norm_num, by norm_num, rfl⟩
  have hLimit : (n : ℝ) * 2 ^ f < limit := by
    refine hLargest.trans_lt ?_
    rw [limit_eq (show (53 : ℤ) + 971 = 1024 by norm_num)]
    exact mul_lt_mul_of_pos_right (by norm_num) (by positivity)
  have hNe : n ≠ 0 := by
    rintro rfl
    norm_num at hOne
  rw [hRound, dyadic, dif_neg hNe, unpack_pack_finite s _ hFits, settle,
    if_neg (mt hFits.range.mp (not_le.mpr hLimit))]
  rfl

theorem isNaN_normalize (m e : ℤ) (z : Sign) :
    (UnpackedFloat.normalize .binary64 m e z).isNaN = false := by
  rw [UnpackedFloat.normalize]
  split
  · exact isNaN_roundWithAccuracy _ _ _ _
  · rfl
  · exact isNaN_roundWithAccuracy _ _ _ _

section

variable {u v : UnpackedFloat}

theorem isNaN_mul_of_regular (hu : u.isNaN = false) (hv : regular v = true) :
    (u.mul .binary64 v).isNaN = false := by
  cases v with
  | finite t n f hn =>
    cases u with
    | notANumber => cases hu
    | finite s m e hm => exact isNaN_roundWithAccuracy _ _ _ _
    | _ => rfl
  | _ => cases hv

theorem isNaN_div_of_regular (hu : u.isNaN = false) (hv : regular v = true) :
    (u.div .binary64 v).isNaN = false := by
  cases v with
  | finite t n f hn =>
    cases u with
    | notANumber => cases hu
    | finite s m e hm => exact isNaN_roundWithAccuracy _ _ _ _
    | _ => rfl
  | _ => cases hv

theorem isNaN_sub_of_regular (hu : regular u = true) (hv : v.isNaN = false) :
    (u.sub .binary64 v).isNaN = false := by
  cases u with
  | finite s m e hm =>
    cases v with
    | notANumber => cases hv
    | finite t n f hn => exact isNaN_normalize _ _ _
    | _ => rfl
  | _ => cases hu

end

theorem isNaN_ofScientific_parts (m : ℕ) (e : ℤ) :
    (UnpackedFloat.ofScientific .binary64 m e).isNaN = false := by
  rw [UnpackedFloat.ofScientific]
  split_ifs
  · rfl
  · rfl
  · rfl
  · exact isNaN_mul_of_regular rfl rfl
  · exact isNaN_div_of_regular rfl rfl

section

variable {x y : Float}

theorem isNaN_mul (hx : x.isNaN = false) (hy : regular y.toModel.unpack = true) :
    (x * y).isNaN = false :=
  (isNaN_unpack_pack _).trans (isNaN_mul_of_regular hx hy)

theorem isNaN_div (hx : x.isNaN = false) (hy : regular y.toModel.unpack = true) :
    (x / y).isNaN = false :=
  (isNaN_unpack_pack _).trans (isNaN_div_of_regular hx hy)

theorem isNaN_sub (hx : regular x.toModel.unpack = true) (hy : y.isNaN = false) :
    (x - y).isNaN = false :=
  (isNaN_unpack_pack _).trans (isNaN_sub_of_regular hx hy)

theorem isNaN_neg (x : Float) : (-x).isNaN = x.isNaN := by
  refine (isNaN_unpack_pack x.toModel.unpack.neg).trans ?_
  change x.toModel.unpack.neg.isNaN = x.toModel.unpack.isNaN
  cases x.toModel.unpack <;> rfl

theorem isNaN_toFloat (n : UInt64) : n.toFloat.isNaN = false :=
  (isNaN_unpack_pack _).trans (isNaN_normalize _ _ _)

theorem regular_powersOfTen : ∀ p ∈ Float.exactlyRepresentablePowersOfTen,
    regular p.toModel.unpack = true := by
  decide +kernel

theorem isNaN_ofScientific (m : ℕ) (down : Bool) (e : ℕ) :
    (Float.ofScientific m down e).isNaN = false := by
  rw [Float.ofScientific]
  split_ifs
  · exact isNaN_div (isNaN_toFloat _) (regular_powersOfTen _ (Array.getElem_mem _))
  · exact isNaN_mul (isNaN_toFloat _) (regular_powersOfTen _ (Array.getElem_mem _))
  · exact (isNaN_unpack_pack _).trans (isNaN_ofScientific_parts _ _)
  · exact (isNaN_unpack_pack _).trans (isNaN_ofScientific_parts _ _)

end

end Binary64

namespace Decimal.Numeral

open Binary64 Float.Model Float.Model.UnpackedFloat

/-- The powers beyond those that are tabulated are products, rounded. -/
theorem regular_powerOfTen_of_lt {k : ℕ} (hLow : 22 < k) (hHigh : k ≤ 308) :
    regular (powerOfTen k).toModel.unpack = true := by
  have hParts : UnpackedFloat.ofScientific .binary64 1 k =
      roundWithAccuracy .binary64 .positive ((1 <<< 53) * 10 ^ k) (-53) .exact := by
    rw [UnpackedFloat.ofScientific, dif_neg one_ne_zero, if_neg (by norm_num; omega),
      if_neg (by norm_num; omega), if_pos (Int.natCast_nonneg k)]
    rfl
  have hPower : powerOfTen k = .ofModel (Float.Model.ofScientific 1 k) := by
    rw [powerOfTen, Float.ofScientific, dif_neg (by omega)]
    rfl
  have hValue : (((1 <<< 53) * 10 ^ k : ℕ) : ℝ) * 2 ^ (-53 : ℤ) = 10 ^ k := by
    rw [Nat.shiftLeft_eq, one_mul, zpow_neg]
    push_cast
    field_simp
    norm_cast
  have hOne : (1 : ℝ) ≤ 10 ^ k := one_le_pow₀ (by norm_num)
  rw [hPower]
  change regular (Float.Model.pack (UnpackedFloat.ofScientific .binary64 1 k)).unpack = true
  rw [hParts]
  apply regular_roundWithAccuracy <;> rw [hValue]
  · have hLog := Int.log_mono_right (b := 2) zero_lt_one hOne
    rw [Int.log_one_right] at hLog
    rw [lastPlace_of_pos (by positivity)]
    exact le_max_of_le_left (by omega)
  · exact hOne
  · have hInt : (10 : ℤ) ^ 308 ≤ (2 ^ 53 - 1) * 2 ^ 971 := by decide +kernel
    have hLargest := Int.cast_le (R := ℝ).mpr hInt
    rw [Int.cast_pow, Int.cast_mul, Int.cast_pow, Int.cast_ofNat, Int.cast_ofNat,
      ← zpow_ofNat (2 : ℝ) 971] at hLargest
    exact (pow_le_pow_right₀ (by norm_num) hHigh).trans hLargest

theorem regular_powerOfTen {k : ℕ} (h : k ≤ maxPower) :
    regular (powerOfTen k).toModel.unpack = true := by
  have hTabulated : ∀ k < 23, regular (powerOfTen k).toModel.unpack = true := by decide +kernel
  obtain hLow | hHigh := Nat.lt_or_ge 22 k
  · exact regular_powerOfTen_of_lt hLow h
  · exact hTabulated k (Nat.lt_succ_of_le hHigh)

theorem isNaN_withSign (n : Numeral) (x : Float) : (n.withSign x).isNaN = x.isNaN := by
  rw [withSign]
  split_ifs
  · exact isNaN_neg x
  · rfl

theorem isNaN_scaleUp? {x y : Float} {k : ℕ} (hx : x.isNaN = false) (h : scaleUp? x k = some y) :
    y.isNaN = false := by
  rw [scaleUp?] at h
  split_ifs at h with hk
  · dsimp only at h
    split_ifs at h
    cases h
    exact isNaN_mul hx (regular_powerOfTen hk)
  · cases h
    exact hx

theorem isNaN_scaleDown {x : Float} (k : ℕ) (hx : x.isNaN = false) :
    (scaleDown x k).isNaN = false := by
  rw [scaleDown]
  split_ifs with hk
  · exact isNaN_div hx (regular_powerOfTen hk)
  · have hFirst := isNaN_div hx (regular_powerOfTen le_rfl)
    exact isNaN_div hFirst (regular_powerOfTen (min_le_right _ _))

theorem isNaN_approximate? {n : Numeral} {x : Float} (h : n.approximate? = some x) :
    x.isNaN = false := by
  rw [approximate?] at h
  dsimp only at h
  obtain ⟨y, hy, rfl⟩ := Option.map_eq_some_iff.mp h
  rw [isNaN_withSign]
  have hWord : ∀ w, (Float.ofNat w).isNaN = false := fun w => isNaN_ofScientific w false 0
  split_ifs at hy
  · cases hy
    rfl
  · exact isNaN_scaleUp? (hWord _) hy
  · cases hy
    exact isNaN_scaleDown _ (hWord _)

end Decimal.Numeral

end FuzzyControl
