import FuzzyControl.Proofs.Binary64.Order
import FuzzyControl.Proofs.Binary64.Rounding

/-! # Normalization rounds

Operations compute an exact mantissa and exponent and normalize them: bits are shifted out on the right
until the rest fits, two of them being kept to decide how to round. `Marks` says what these two bits
mean, and `rounds_normalize` that the parts which come out stand for the nearest number.
-/
namespace FuzzyControl.Binary64

open Float.Model Float.Model.UnpackedFloat

set_option autoImplicit false

/-- A mantissa with two more bits stands for `x`: the first says whether the fraction is a half or
more, the second whether it is anything but zero or a half. -/
structure Marks (em : ExtendedMantissa) (x : ℝ) : Prop where
  floor : ⌊x⌋ = (em.mantissa : ℤ)
  round : em.roundBit = true ↔ 1 / 2 ≤ Int.fract x
  sticky : em.stickyBit = true ↔ Int.fract x ≠ 0 ∧ Int.fract x ≠ 1 / 2

theorem marks_exact (m : ℕ) : Marks (.ofMantissaAndAccuracy m .exact) m := by
  constructor <;> simp [ExtendedMantissa.ofMantissaAndAccuracy]

theorem Marks.roundedMantissa {em : ExtendedMantissa} {x : ℝ} (h : Marks em x) :
    (em.roundedMantissa : ℤ) = roundEven x := by
  obtain ⟨m, r, s⟩ := em
  obtain ⟨hFloor, hRound, hSticky⟩ := h
  have hParity : Even (m : ℤ) ↔ m % 2 = 0 := by
    rw [Int.even_coe_nat, Nat.even_iff]
  have hNonneg := Int.fract_nonneg x
  rw [roundEven, hFloor]
  cases r with
  | false =>
    have hLt : Int.fract x < 1 / 2 := by simpa using hRound
    rw [if_pos hLt]
    cases s <;> rfl
  | true =>
    have hLe : 1 / 2 ≤ Int.fract x := hRound.mp rfl
    rw [if_neg (not_lt.mpr hLe)]
    cases s with
    | false =>
      have hHalf : Int.fract x = 1 / 2 := by
        by_contra hNe
        exact absurd (hSticky.mpr ⟨by linarith, hNe⟩) (by simp)
      rw [if_neg (by rw [hHalf]; exact lt_irrefl _)]
      simp only [hParity, ExtendedMantissa.roundedMantissa, ExtendedMantissa.accuracy,
        Accuracy.roundToNearestEven]
      split_ifs <;> omega
    | true =>
      have hNe : Int.fract x ≠ 1 / 2 := (hSticky.mp rfl).2
      rw [if_pos (lt_of_le_of_ne hLe hNe.symm)]
      rfl

theorem Marks.shiftRightOne {em : ExtendedMantissa} {x : ℝ} (h : Marks em x) :
    Marks em.shiftRightOne (x / 2) := by
  have hFloor : ⌊x / 2⌋ = ((em.mantissa / 2 : ℕ) : ℤ) := by
    have := Int.floor_div_natCast x 2
    rw [h.floor] at this
    exact_mod_cast this
  have hDivMod : ((em.mantissa / 2 : ℕ) : ℝ) * 2 + ((em.mantissa % 2 : ℕ) : ℝ) = em.mantissa := by
    exact_mod_cast Nat.div_add_mod' em.mantissa 2
  have hFract : Int.fract (x / 2) = (((em.mantissa % 2 : ℕ) : ℝ) + Int.fract x) / 2 := by
    have hx := Int.floor_add_fract x
    have hHalf := Int.floor_add_fract (x / 2)
    rw [h.floor, Int.cast_natCast] at hx
    rw [hFloor, Int.cast_natCast] at hHalf
    linarith
  have hNonneg := Int.fract_nonneg x
  have hLtOne := Int.fract_lt_one x
  refine ⟨hFloor, ?_, ?_⟩
  · rw [ExtendedMantissa.shiftRightOne, hFract]
    obtain hBit | hBit := Nat.mod_two_eq_zero_or_one em.mantissa
    · simp only [hBit, bne_self_eq_false, Bool.false_eq_true, Nat.cast_zero, zero_add, false_iff,
        not_le]
      linarith
    · simp only [hBit, Nat.cast_one]
      exact iff_of_true rfl (by linarith)
  · have hLost : (em.roundBit || em.stickyBit) = true ↔ Int.fract x ≠ 0 := by
      rw [Bool.or_eq_true, h.round, h.sticky]
      constructor
      · rintro (hLe | hNe)
        · linarith
        · exact hNe.1
      · intro hNe
        by_cases hHalf : Int.fract x = 1 / 2
        · exact .inl hHalf.ge
        · exact .inr ⟨hNe, hHalf⟩
    change (em.roundBit || em.stickyBit) = true ↔ _
    rw [hLost, hFract]
    obtain hBit | hBit := Nat.mod_two_eq_zero_or_one em.mantissa <;> rw [hBit]
    · push_cast
      constructor
      · exact fun hNe => ⟨fun h => hNe (by linarith), by linarith⟩
      · exact fun hNe h => hNe.1 (by linarith)
    · push_cast
      constructor
      · exact fun hNe => ⟨by linarith, fun h => hNe (by linarith)⟩
      · exact fun hNe h => hNe.2 (by linarith)

theorem Marks.shiftRight {em : ExtendedMantissa} {x : ℝ} (h : Marks em x) (n : ℕ) :
    Marks (em >>> n) (x / 2 ^ n) := by
  change Marks (n.repeat ExtendedMantissa.shiftRightOne em) _
  induction n with
  | zero => simpa [Nat.repeat] using h
  | succ n ih =>
    rw [pow_succ, ← div_div]
    exact ih.shiftRightOne

theorem log_of_floor {x : ℝ} {m : ℕ} {e : ℤ} (hm : 0 < m) (h : ⌊x / 2 ^ e⌋ = (m : ℤ)) :
    Int.log 2 x = (m.log2 : ℤ) + e := by
  have hPow : (0 : ℝ) < 2 ^ e := by positivity
  obtain ⟨hLow, hHigh⟩ := Int.floor_eq_iff.mp h
  rw [Int.cast_natCast, le_div_iff₀ hPow] at hLow
  rw [Int.cast_natCast, div_lt_iff₀ hPow] at hHigh
  have hPos : 0 < x := lt_of_lt_of_le (by positivity) hLow
  have hLead : (2 : ℝ) ^ (m.log2 : ℤ) ≤ m := by
    rw [zpow_natCast]
    exact_mod_cast Nat.log2_self_le hm.ne'
  have hNext : (m : ℝ) + 1 ≤ 2 ^ ((m.log2 : ℤ) + 1) := by
    have : m + 1 ≤ 2 ^ (m.log2 + 1) := Nat.lt_log2_self
    exact_mod_cast this
  apply le_antisymm
  · apply Int.lt_add_one_iff.mp
    rw [← Int.lt_zpow_iff_log_lt (by norm_num) hPos, add_right_comm]
    push_cast
    rw [zpow_add₀ two_ne_zero]
    exact hHigh.trans_le (mul_le_mul_of_nonneg_right hNext hPow.le)
  · rw [← Int.zpow_le_iff_le_log (by norm_num) hPos]
    push_cast
    rw [zpow_add₀ two_ne_zero]
    exact (mul_le_mul_of_nonneg_right hLead hPow.le).trans hLow

theorem targetExponent_totalExponent (m : ℕ) (e : ℤ) :
    Format.binary64.targetExponent (totalExponent m e) = max ((m.log2 : ℤ) + e - 52) (-1074) := by
  rw [Format.targetExponent, totalExponent]
  change max ((m.log2 : ℤ) + 1 + e - 53) (-1074) = _
  congr 1
  ring

/-- The exponent aimed at is found from the digits before the point alone, even if there are none. -/
theorem targetExponent_of_floor {x : ℝ} {m : ℕ} {e : ℤ} (hx : 0 < x) (he : e ≤ lastPlace x)
    (h : ⌊x / 2 ^ e⌋ = (m : ℤ)) :
    Format.binary64.targetExponent (totalExponent m e) = lastPlace x := by
  rw [targetExponent_totalExponent]
  obtain rfl | hm := Nat.eq_zero_or_pos m
  · have hPow : (0 : ℝ) < 2 ^ e := by positivity
    have hBelow : x < ((2 : ℕ) : ℝ) ^ e := by
      have hQuot := (Int.floor_eq_iff.mp h).2
      rw [div_lt_iff₀ hPow] at hQuot
      push_cast at hQuot ⊢
      linarith
    have hLog : Int.log 2 x < e := (Int.lt_zpow_iff_log_lt (by norm_num) hx).mp hBelow
    rw [lastPlace_of_pos hx] at he ⊢
    have hZero : Nat.log2 0 = 0 := by decide
    rw [hZero]
    omega
  · rw [lastPlace_of_pos hx, log_of_floor hm h]

theorem floor_mul_zpow_div (m : ℕ) (e : ℤ) : ⌊(m : ℝ) * 2 ^ e / 2 ^ e⌋ = (m : ℤ) := by
  rw [mul_div_cancel_right₀ _ (by positivity), Int.floor_natCast]

theorem targetExponent_eq {m : ℕ} (hm : 0 < m) (e : ℤ) :
    Format.binary64.targetExponent (totalExponent m e) = lastPlace (m * 2 ^ e) := by
  rw [targetExponent_totalExponent, lastPlace_of_pos (by positivity),
    log_of_floor hm (floor_mul_zpow_div m e)]

theorem targetExponent_le {r : ℕ} {t : ℤ} (hr : r < 2 ^ 53) (ht : -1074 ≤ t) :
    Format.binary64.targetExponent (totalExponent r t) ≤ t := by
  have hLog : r.log2 ≤ 52 := by
    obtain rfl | hPos := Nat.eq_zero_or_pos r
    · decide
    · exact Nat.le_of_lt_succ ((Nat.log2_lt hPos.ne').mpr hr)
  rw [Format.targetExponent, totalExponent]
  change max ((r.log2 : ℤ) + 1 + t - 53) (-1074) ≤ t
  omega

theorem shiftToExponent_of_le {m : ℕ} {e t : ℤ} (h : t ≤ e) :
    shiftToExponent m e .exact t = (.ofMantissaAndAccuracy m .exact, e) := by
  have hZero : (t - e).toNat = 0 := by omega
  rw [shiftToExponent]
  simp only [hZero, Nat.cast_zero, add_zero]
  rfl

/-- The parts of a number with that mantissa and exponent, of a zero if the mantissa is zero. -/
def dyadic (s : Sign) (m : ℕ) (e : ℤ) : UnpackedFloat :=
  if h : m = 0 then .zero s else .finite s m e (Nat.pos_of_ne_zero h)

/-- A rounded mantissa has one bit too many at most, and then that bit is zero. -/
theorem shift_carry {r : ℕ} {t : ℤ} (hr : r ≤ 2 ^ 53) (ht : -1074 ≤ t)
    (hLeading : 2 ^ 52 ≤ r ∨ t = -1074) :
    ∃ n f, Fits n f ∧ (n : ℝ) * 2 ^ f = r * 2 ^ t ∧
      shiftToTargetExponent .binary64 r t .exact = (.ofMantissaAndAccuracy n .exact, f) := by
  obtain hLt | rfl := hr.lt_or_eq
  · exact ⟨r, t, ⟨hLt, ht, hLeading⟩, rfl, shiftToExponent_of_le (targetExponent_le hLt ht)⟩
  · refine ⟨2 ^ 52, t + 1, ⟨by decide, by omega, .inl le_rfl⟩, ?_, ?_⟩
    · rw [zpow_add_one₀ two_ne_zero]
      push_cast
      ring
    · have hTarget : Format.binary64.targetExponent (totalExponent (2 ^ 53) t) = t + 1 := by
        rw [Format.targetExponent, totalExponent, Nat.log2_two_pow]
        change max (((53 : ℕ) : ℤ) + 1 + t - 53) (-1074) = t + 1
        push_cast
        omega
      have hOne : (t + 1 - t).toNat = 1 := by omega
      rw [shiftToTargetExponent, hTarget, shiftToExponent]
      simp only [hOne]
      rfl

theorem mantissa_ofMantissaAndAccuracy (m : ℕ) (acc : Accuracy) :
    (ExtendedMantissa.ofMantissaAndAccuracy m acc).mantissa = m := by
  cases acc with
  | exact => rfl
  | inexact o => cases o <;> rfl

theorem marks_shiftToTargetExponent {x : ℝ} {m : ℕ} {e : ℤ} {acc : Accuracy} (hx : 0 < x)
    (he : e ≤ lastPlace x) (h : Marks (.ofMantissaAndAccuracy m acc) (x / 2 ^ e)) :
    ∃ em, shiftToTargetExponent .binary64 m e acc = (em, lastPlace x) ∧
      Marks em (x / 2 ^ lastPlace x) := by
  have hFloor := h.floor
  rw [mantissa_ofMantissaAndAccuracy] at hFloor
  obtain ⟨d, hd⟩ := Int.le.dest he
  refine ⟨ExtendedMantissa.ofMantissaAndAccuracy m acc >>> d, ?_, ?_⟩
  · rw [shiftToTargetExponent, targetExponent_of_floor hx he hFloor, shiftToExponent]
    simp only [← hd, add_sub_cancel_left, Int.toNat_natCast]
  · have hQuot : x / 2 ^ lastPlace x = x / 2 ^ e / 2 ^ d := by
      rw [← hd, zpow_add₀ two_ne_zero, zpow_natCast, div_div]
    rw [hQuot]
    exact h.shiftRight d

/-- Rounding of a positive number that was cut off at some place, not above the last one. -/
theorem roundWithAccuracy_of_marks (s : Sign) {x : ℝ} {m : ℕ} {e : ℤ} {acc : Accuracy}
    (hx : 0 < x) (he : e ≤ lastPlace x)
    (h : Marks (.ofMantissaAndAccuracy m acc) (x / 2 ^ e)) :
    ∃ n f, Fits n f ∧ (n : ℝ) * 2 ^ f = nearest x ∧
      roundWithAccuracy .binary64 s m e acc = dyadic s n f := by
  obtain ⟨em, hShift, hMarks⟩ := marks_shiftToTargetExponent hx he h
  have hRounded := hMarks.roundedMantissa
  have hNearest : nearest x = em.roundedMantissa * 2 ^ lastPlace x := by
    rw [nearest, ← hRounded, Int.cast_natCast]
  have hBelow : em.roundedMantissa ≤ 2 ^ 53 := by
    have hLe := roundEven_lastPlace_le hx
    rw [← hRounded] at hLe
    exact_mod_cast hLe
  have hLeading : 2 ^ 52 ≤ em.roundedMantissa ∨ lastPlace x = -1074 := by
    have hGe := le_roundEven_lastPlace hx
    rw [← hRounded] at hGe
    exact_mod_cast hGe
  obtain ⟨n, f, hFits, hValue, hCarry⟩ := shift_carry hBelow (le_lastPlace _) hLeading
  refine ⟨n, f, hFits, hValue.trans hNearest.symm, ?_⟩
  rw [roundWithAccuracy, hShift]
  simp only [hCarry]
  rfl

theorem roundWithAccuracy_spec (s : Sign) {m : ℕ} {e : ℤ} (hm : 0 < m)
    (he : e ≤ lastPlace (m * 2 ^ e)) :
    ∃ n f, Fits n f ∧ (n : ℝ) * 2 ^ f = nearest (m * 2 ^ e) ∧
      roundWithAccuracy .binary64 s m e .exact = dyadic s n f := by
  refine roundWithAccuracy_of_marks s (by positivity) he ?_
  rw [mul_div_cancel_right₀ _ (by positivity)]
  exact marks_exact m

theorem decreaseExponent_snd (m : ℕ) (e t : ℤ) : (decreaseExponent m e t).2 = min e t := by
  change e - ((e - t).toNat : ℤ) = min e t
  omega

theorem decreaseExponent_fst (m : ℕ) (e t : ℤ) :
    ((decreaseExponent m e t).1 : ℝ) * 2 ^ min e t = m * 2 ^ e := by
  obtain ⟨d, hd⟩ : ∃ d, d = (e - t).toNat := ⟨_, rfl⟩
  have hShift : e = min e t + d := by omega
  have hPow : (2 : ℝ) ^ e = 2 ^ min e t * 2 ^ d := by
    rw [← zpow_natCast, ← zpow_add₀ two_ne_zero, ← hShift]
  change ((m <<< (e - t).toNat : ℕ) : ℝ) * _ = _
  rw [← hd, Nat.shiftLeft_eq, hPow]
  push_cast
  ring

theorem round_spec (s : Sign) {m : ℕ} (hm : 0 < m) (e : ℤ) :
    ∃ n f, Fits n f ∧ (n : ℝ) * 2 ^ f = nearest (m * 2 ^ e) ∧
      UnpackedFloat.round .binary64 s m e = dyadic s n f := by
  obtain ⟨d, hd⟩ : ∃ d, d = decreaseExponent m e (lastPlace (m * 2 ^ e)) := ⟨_, rfl⟩
  have hExponent : d.2 = min e (lastPlace (m * 2 ^ e)) := by rw [hd, decreaseExponent_snd]
  have hValue : (d.1 : ℝ) * 2 ^ d.2 = m * 2 ^ e := by
    rw [hExponent, hd, decreaseExponent_fst]
  have hPos : 0 < d.1 := by
    have hProduct : (0 : ℝ) < d.1 * 2 ^ d.2 := by
      rw [hValue]
      positivity
    exact_mod_cast pos_of_mul_pos_left hProduct (by positivity)
  have hLow : d.2 ≤ lastPlace (d.1 * 2 ^ d.2) := by
    rw [hValue, hExponent]
    exact min_le_right _ _
  obtain ⟨n, f, hFits, hNearest, hRound⟩ := roundWithAccuracy_spec s hPos hLow
  refine ⟨n, f, hFits, by rw [hNearest, hValue], ?_⟩
  rw [UnpackedFloat.round, targetExponent_eq hm]
  simp only [← hd]
  exact hRound

theorem Fits.range {n : ℕ} {f : ℤ} (h : Fits n f) : 971 < f ↔ limit ≤ n * 2 ^ f := by
  constructor
  · intro hLarge
    have hLeading : (2 : ℝ) ^ (52 : ℤ) ≤ n := by
      have : 2 ^ 52 ≤ n := h.leading.resolve_right (by omega)
      exact_mod_cast this
    have hPow : (2 : ℝ) ^ (972 : ℤ) ≤ 2 ^ f := zpow_le_zpow_right₀ (by norm_num) (by omega)
    rw [limit_eq (show (52 : ℤ) + 972 = 1024 by norm_num)]
    exact mul_le_mul hLeading hPow (by positivity) (by positivity)
  · intro hLarge
    by_contra hSmall
    have hBelow : (n : ℝ) < 2 ^ (53 : ℤ) := by exact_mod_cast h.lt
    have hPow : (2 : ℝ) ^ f ≤ 2 ^ (971 : ℤ) := zpow_le_zpow_right₀ (by norm_num) (by omega)
    rw [limit_eq (show (53 : ℤ) + 971 = 1024 by norm_num)] at hLarge
    exact absurd hLarge (not_le.mpr (mul_lt_mul hBelow hPow (by positivity) (by positivity)))

theorem extended_settle_dyadic (s : Sign) {n : ℕ} {f : ℤ} (h : Fits n f) :
    extended (settle (dyadic s n f)) = confined (s.apply n * 2 ^ f) := by
  have hLimit := limit_pos
  have hNonneg : (0 : ℝ) ≤ n * 2 ^ f := by positivity
  have hSigned : ((s.apply n : ℤ) : ℝ) * 2 ^ f = n * 2 ^ f ∧ s = .positive ∨
      ((s.apply n : ℤ) : ℝ) * 2 ^ f = -(n * 2 ^ f) ∧ s = .negative := by
    cases s <;> simp [Sign.apply]
  unfold dyadic
  by_cases hZero : n = 0
  · rw [dif_pos hZero, hZero]
    cases s <;> simp [settle, extended, Sign.apply]
  · rw [dif_neg hZero, settle]
    by_cases hLarge : 971 < f
    · have hReach := h.range.mp hLarge
      rw [if_pos hLarge]
      obtain ⟨hValue, rfl⟩ | ⟨hValue, rfl⟩ := hSigned
      · rw [hValue, confined_of_le hReach]
        rfl
      · rw [hValue, confined_of_le_neg (neg_le_neg hReach)]
        rfl
    · have hShort := not_le.mp (mt h.range.mpr hLarge)
      have hBound : |((s.apply n : ℤ) : ℝ) * 2 ^ f| < limit := by
        obtain ⟨hValue, -⟩ | ⟨hValue, -⟩ := hSigned <;> rw [hValue]
        · rwa [abs_of_nonneg hNonneg]
        · rwa [abs_neg, abs_of_nonneg hNonneg]
      rw [if_neg hLarge, confined_of_lt hBound]
      rfl

theorem canonical_dyadic (s : Sign) {n : ℕ} {f : ℤ} (h : Fits n f) :
    Canonical (dyadic s n f) ∧ (settle (dyadic s n f)).isNaN = false := by
  unfold dyadic
  split_ifs
  · exact ⟨trivial, rfl⟩
  · refine ⟨h, ?_⟩
    rw [settle]
    split_ifs <;> rfl

/-- Parts of an operation's result, the exact result being `x`. -/
structure Rounds (u : UnpackedFloat) (x : ℝ) : Prop where
  canonical : Canonical u
  isNaN : (settle u).isNaN = false
  extended : extended (settle u) = rounded x

theorem rounds_normalize (m : ℤ) (e : ℤ) (z : Sign) :
    Rounds (UnpackedFloat.normalize .binary64 m e z) (m * 2 ^ e) := by
  rw [UnpackedFloat.normalize]
  obtain h | rfl | h := lt_trichotomy m 0
  · have hPos : 0 < (-m).toNat := by omega
    have hMantissa : (((-m).toNat : ℕ) : ℝ) = -(m : ℝ) := by
      have : (((-m).toNat : ℕ) : ℤ) = -m := by omega
      exact_mod_cast this
    obtain ⟨n, f, hFits, hNearest, hRound⟩ := round_spec .negative hPos e
    rw [compare_lt_iff_lt.mpr h]
    simp only [hRound]
    refine ⟨(canonical_dyadic _ hFits).1, (canonical_dyadic _ hFits).2, ?_⟩
    rw [extended_settle_dyadic _ hFits, rounded]
    rw [hMantissa, neg_mul, nearest_neg] at hNearest
    simp only [Sign.apply]
    push_cast
    rw [neg_mul, hNearest, neg_neg]
  · refine ⟨trivial, rfl, ?_⟩
    rw [Int.cast_zero, zero_mul, rounded, nearest_zero, confined_zero]
    rfl
  · have hPos : 0 < m.toNat := by omega
    have hMantissa : ((m.toNat : ℕ) : ℝ) = (m : ℝ) := by
      have : ((m.toNat : ℕ) : ℤ) = m := by omega
      exact_mod_cast this
    obtain ⟨n, f, hFits, hNearest, hRound⟩ := round_spec .positive hPos e
    rw [compare_gt_iff_gt.mpr h]
    simp only [hRound]
    refine ⟨(canonical_dyadic _ hFits).1, (canonical_dyadic _ hFits).2, ?_⟩
    rw [extended_settle_dyadic _ hFits, rounded, ← hMantissa, ← hNearest]
    rfl

end FuzzyControl.Binary64
