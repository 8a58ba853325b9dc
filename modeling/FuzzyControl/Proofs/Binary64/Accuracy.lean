import FuzzyControl.Proofs.Binary64.Quotients

/-! # How far rounding goes

Rounding moves a number by half of its last place at most, so by a small part of it or by less than the
least positive double; a sum or a difference of doubles, being a multiple of that double, is moved by a
small part of it in any case, and never to zero. Between two doubles that differ lies a small part of
each of them at least. The middle of two doubles, computed by half of their difference, lies between
them and is near the exact one.
-/
namespace FuzzyControl.Binary64

set_option autoImplicit false

theorem abs_roundEven_sub_le (x : ℝ) : |(roundEven x : ℝ) - x| ≤ 1 / 2 := by
  have hSplit := Int.floor_add_fract x
  have hNonneg := Int.fract_nonneg x
  have hLtOne := Int.fract_lt_one x
  rw [abs_le]
  unfold roundEven
  split_ifs <;> push_cast <;> constructor <;> linarith

theorem abs_nearest_sub_le_place (x : ℝ) : |nearest x - x| ≤ 2 ^ lastPlace x / 2 := by
  have hPos : (0 : ℝ) < 2 ^ lastPlace x := by positivity
  have hScaled : nearest x - x =
      (roundEven (x / 2 ^ lastPlace x) - x / 2 ^ lastPlace x) * 2 ^ lastPlace x := by
    rw [sub_mul, div_mul_cancel₀ _ hPos.ne', nearest]
  rw [hScaled, abs_mul, abs_of_pos hPos]
  have hHalf := mul_le_mul_of_nonneg_right (abs_roundEven_sub_le (x / 2 ^ lastPlace x)) hPos.le
  linarith

theorem zpow_log_le_abs {x : ℝ} (hx : x ≠ 0) : (2 : ℝ) ^ Int.log 2 |x| ≤ |x| := by
  exact_mod_cast Int.zpow_log_le_self (b := 2) (by norm_num) (abs_pos.mpr hx)

theorem abs_nearest_sub_le_leading {x : ℝ} (h : lastPlace x = Int.log 2 |x| - 52) :
    |nearest x - x| ≤ 2 ^ Int.log 2 |x| * 2 ^ (-53 : ℤ) := by
  calc
    |nearest x - x| ≤ 2 ^ lastPlace x / 2 := abs_nearest_sub_le_place x
    _ = 2 ^ Int.log 2 |x| * 2 ^ (-53 : ℤ) := by
      rw [h, div_eq_mul_inv, ← zpow_sub_one₀ two_ne_zero, ← zpow_add₀ two_ne_zero]
      congr 1
      ring

theorem abs_nearest_sub_le_part {x : ℝ} (hx : x ≠ 0) (h : lastPlace x = Int.log 2 |x| - 52) :
    |nearest x - x| ≤ |x| * 2 ^ (-53 : ℤ) :=
  (abs_nearest_sub_le_leading h).trans
    (mul_le_mul_of_nonneg_right (zpow_log_le_abs hx) (by positivity))

theorem abs_nearest_sub_le_halfGrain {x : ℝ} (h : lastPlace x = -1074) :
    |nearest x - x| ≤ halfGrain := by
  calc
    |nearest x - x| ≤ 2 ^ lastPlace x / 2 := abs_nearest_sub_le_place x
    _ = halfGrain := by
      rw [h, halfGrain, div_eq_mul_inv, ← zpow_sub_one₀ two_ne_zero]
      norm_num

theorem abs_nearest_sub_le (x : ℝ) : |nearest x - x| ≤ |x| * 2 ^ (-53 : ℤ) + 2 ^ (-1075 : ℤ) := by
  obtain rfl | hx := eq_or_ne x 0
  · rw [nearest_zero, sub_self, abs_zero]
    positivity
  · obtain h | h := max_choice (Int.log 2 |x| - 52) (-1074)
    · exact (abs_nearest_sub_le_part hx h).trans (le_add_of_nonneg_right (by positivity))
    · exact (abs_nearest_sub_le_halfGrain h).trans (le_add_of_nonneg_left (by positivity))

theorem abs_nearest_sub_le_of_lt {x : ℝ} (h : |x| < 2 ^ (-1021 : ℤ)) :
    |nearest x - x| ≤ halfGrain := by
  obtain rfl | hx := eq_or_ne x 0
  · rw [nearest_zero, sub_self, abs_zero, halfGrain]
    positivity
  · have hLog : Int.log 2 |x| < -1021 :=
      (Int.lt_zpow_iff_log_lt (by norm_num) (abs_pos.mpr hx)).mp (by exact_mod_cast h)
    exact abs_nearest_sub_le_halfGrain (max_eq_right (by omega))

section

variable {x y : ℝ}

theorem Representable.granular (h : Representable x) : Granular x := by
  obtain ⟨n, e, -, he, rfl⟩ := h
  obtain ⟨d, rfl⟩ := Int.le.dest he
  refine ⟨n * 2 ^ d, ?_⟩
  rw [zpow_add₀ two_ne_zero, zpow_natCast]
  push_cast
  ring

theorem Granular.add (hx : Granular x) (hy : Granular y) : Granular (x + y) := by
  obtain ⟨k, rfl⟩ := hx
  obtain ⟨l, rfl⟩ := hy
  exact ⟨k + l, by push_cast; ring⟩

theorem Granular.sub (hx : Granular x) (hy : Granular y) : Granular (x - y) := by
  obtain ⟨k, rfl⟩ := hx
  obtain ⟨l, rfl⟩ := hy
  exact ⟨k - l, by push_cast; ring⟩

theorem Granular.le_of_pos (h : Granular x) (hx : 0 < x) : 2 ^ (-1074 : ℤ) ≤ x := by
  obtain ⟨k, rfl⟩ := h
  have hStep : (0 : ℝ) < 2 ^ (-1074 : ℤ) := by positivity
  have hPos : (0 : ℝ) < k := pos_of_mul_pos_left hx hStep.le
  have hOne : (1 : ℝ) ≤ k := by exact_mod_cast (Int.cast_pos.mp hPos : 0 < k)
  exact le_mul_of_one_le_left hStep.le hOne

theorem representable_zpow {k : ℤ} (h : -1074 ≤ k) : Representable (2 ^ k) :=
  ⟨1, k, by norm_num, h, by simp⟩

theorem Representable.two_mul (h : Representable x) : Representable (2 * x) := by
  obtain ⟨n, e, hn, he, rfl⟩ := h
  refine ⟨n, e + 1, hn, by omega, ?_⟩
  rw [zpow_add_one₀ two_ne_zero]
  ring

theorem Representable.neg (h : Representable x) : Representable (-x) := by
  obtain ⟨n, e, hn, he, rfl⟩ := h
  exact ⟨-n, e, by rwa [abs_neg], he, by push_cast; ring⟩

theorem representable_nearest_of_pos (hx : 0 < x) : Representable (nearest x) := by
  have hNonneg : 0 ≤ roundEven (x / 2 ^ lastPlace x) := by
    have hFloor : 0 ≤ ⌊x / 2 ^ lastPlace x⌋ := Int.floor_nonneg.mpr (by positivity)
    exact hFloor.trans (floor_le_roundEven _)
  obtain hLt | hCarry := (roundEven_lastPlace_le hx).lt_or_eq
  · exact ⟨_, _, by rwa [abs_of_nonneg hNonneg], le_lastPlace x, rfl⟩
  · have hPower : nearest x = 2 ^ (53 + lastPlace x) := by
      rw [nearest, hCarry, zpow_add₀ two_ne_zero]
      norm_num
    rw [hPower]
    exact representable_zpow (by linarith [le_lastPlace x])

/-- Rounding ends at a representable number, also where it carries into a fifty-fourth bit. -/
theorem representable_nearest (x : ℝ) : Representable (nearest x) := by
  obtain hNeg | rfl | hPos := lt_trichotomy x 0
  · have hMirror := (representable_nearest_of_pos (neg_pos.mpr hNeg)).neg
    rwa [nearest_neg, neg_neg] at hMirror
  · rw [nearest_zero]
    exact denotes_zero.parts.representable.1
  · exact representable_nearest_of_pos hPos

theorem granular_nearest (x : ℝ) : Granular (nearest x) :=
  (representable_nearest x).granular

/-- Half of a double is exact unless it falls between two multiples of the least positive one. -/
theorem Representable.abs_nearest_half_sub_le (h : Representable x) :
    |nearest (x / 2) - x / 2| ≤ halfGrain := by
  obtain ⟨n, e, hn, he, rfl⟩ := h
  have hHalf : (n : ℝ) * 2 ^ e / 2 = n * 2 ^ (e - 1) := by
    rw [zpow_sub_one₀ two_ne_zero]
    ring
  obtain rfl | hAbove := he.eq_or_lt
  · apply abs_nearest_sub_le_of_lt
    have hDigits : |(n : ℝ)| < 2 ^ (53 : ℤ) := by exact_mod_cast hn
    calc
      |(n : ℝ) * 2 ^ (-1074 : ℤ) / 2| = |(n : ℝ)| * 2 ^ (-1074 - 1 : ℤ) := by
        rw [hHalf, abs_mul, abs_of_pos (by positivity : (0 : ℝ) < 2 ^ (-1074 - 1 : ℤ))]
      _ < 2 ^ (53 : ℤ) * 2 ^ (-1074 - 1 : ℤ) := mul_lt_mul_of_pos_right hDigits (by positivity)
      _ ≤ 2 ^ (-1021 : ℤ) := by
        rw [← zpow_add₀ two_ne_zero]
        exact zpow_le_zpow_right₀ one_le_two (by norm_num)
  · have hExact : Representable ((n : ℝ) * 2 ^ e / 2) := ⟨n, e - 1, hn, by omega, hHalf⟩
    rw [nearest_eq_self hExact, sub_self, abs_zero, halfGrain]
    positivity

theorem Representable.lt_of_lt_nearest (h : Representable y) (hx : y < nearest x) : y < x := by
  by_contra hLe
  have hNearest : nearest x ≤ nearest y := nearest_mono (not_lt.mp hLe)
  rw [nearest_eq_self h] at hNearest
  exact absurd hx (not_lt.mpr hNearest)

theorem Representable.lt_of_nearest_lt (h : Representable y) (hx : nearest x < y) : x < y := by
  by_contra hLe
  have hNearest : nearest y ≤ nearest x := nearest_mono (not_lt.mp hLe)
  rw [nearest_eq_self h] at hNearest
  exact absurd hx (not_lt.mpr hNearest)

theorem Granular.nearest_pos (h : Granular x) (hx : 0 < x) : 0 < nearest x := by
  calc
    (0 : ℝ) < 2 ^ (-1074 : ℤ) := by positivity
    _ = nearest (2 ^ (-1074 : ℤ)) := (nearest_eq_self (representable_zpow le_rfl)).symm
    _ ≤ nearest x := nearest_mono (h.le_of_pos hx)

theorem Granular.neg (h : Granular x) : Granular (-x) := by
  obtain ⟨k, rfl⟩ := h
  exact ⟨-k, by push_cast; ring⟩

theorem Granular.nearest_ne_zero (h : Granular x) (hx : x ≠ 0) : nearest x ≠ 0 := by
  obtain hNeg | hPos := hx.lt_or_gt
  · have hMirror := h.neg.nearest_pos (neg_pos.mpr hNeg)
    rw [nearest_neg] at hMirror
    exact (neg_pos.mp hMirror).ne
  · exact (h.nearest_pos hPos).ne'

theorem Granular.rounded_ne_zero (h : Granular x) (hx : x ≠ 0) : rounded x ≠ 0 := by
  have hNearest := h.nearest_ne_zero hx
  rw [rounded, confined]
  split_ifs
  · exact EReal.zero_ne_top.symm
  · exact EReal.zero_ne_bot.symm
  · exact EReal.coe_ne_zero.mpr hNearest

theorem Granular.abs_nearest_sub_le (h : Granular x) : |nearest x - x| ≤ |x| * 2 ^ (-53 : ℤ) := by
  obtain rfl | hx := eq_or_ne x 0
  · rw [nearest_zero, sub_self, abs_zero, zero_mul]
  · obtain hPlace | hPlace := max_choice (Int.log 2 |x| - 52) (-1074)
    · exact abs_nearest_sub_le_part hx hPlace
    · obtain ⟨k, hk⟩ := h
      rw [nearest_of_multiple (hPlace.le) hk, sub_self, abs_zero]
      positivity

/-- Half of a rounded length is not more than the length: a power of two lies between them. -/
theorem Granular.nearest_half_le (h : Granular x) (hx : 0 ≤ x) : nearest (nearest x / 2) ≤ x := by
  obtain rfl | hPos := hx.eq_or_lt
  · simp
  · have hLow : (2 : ℝ) ^ Int.log 2 x ≤ x := by
      exact_mod_cast Int.zpow_log_le_self (b := 2) (by norm_num) hPos
    have hHigh : x ≤ (2 : ℝ) ^ (Int.log 2 x + 1) := by
      exact_mod_cast (Int.lt_zpow_succ_log_self (b := 2) (by norm_num) x).le
    have hLeast : -1074 ≤ Int.log 2 x := by
      rw [← Int.zpow_le_iff_le_log (by norm_num) hPos]
      exact_mod_cast h.le_of_pos hPos
    have hRounded : nearest x ≤ 2 ^ (Int.log 2 x + 1) := by
      rw [← nearest_eq_self (representable_zpow (show -1074 ≤ Int.log 2 x + 1 by omega))]
      exact nearest_mono hHigh
    calc
      nearest (nearest x / 2) ≤ nearest (2 ^ Int.log 2 x) := by
        rw [zpow_add_one₀ two_ne_zero] at hRounded
        exact nearest_mono (by linarith)
      _ = 2 ^ Int.log 2 x := nearest_eq_self (representable_zpow hLeast)
      _ ≤ x := hLow

theorem natAbs_le_mul_natAbs_sub {m n k : ℤ} (hk : 0 < k) (hNe : m ≠ n)
    (h : |m| < k ∨ |n| < k) : |m| ≤ k * |m - n| := by
  have hApart : 1 ≤ |m - n| := Int.one_le_abs (sub_ne_zero.mpr hNe)
  by_cases hSmall : |m| < k
  · nlinarith
  · have hOther : |n| < k := h.resolve_left hSmall
    have hTriangle : |m| - |n| ≤ |m - n| := abs_sub_abs_le_abs_sub m n
    nlinarith

theorem Representable.abs_le_mul_abs_sub (hx : Representable x) (hy : Representable y)
    (h : x ≠ y) : |x| ≤ 2 ^ (53 : ℤ) * |x - y| := by
  -- both are multiples of the lesser of the two units, and one of them has few digits in it
  obtain ⟨m, n, e, hFew, rfl, rfl⟩ : ∃ (m n e : ℤ), (|m| < 2 ^ 53 ∨ |n| < 2 ^ 53) ∧
      x = m * 2 ^ e ∧ y = n * 2 ^ e := by
    obtain ⟨m, e, hm, -, rfl⟩ := hx
    obtain ⟨n, f, hn, -, rfl⟩ := hy
    obtain hLe | hLe := le_total e f
    · obtain ⟨d, rfl⟩ := Int.le.dest hLe
      refine ⟨m, n * 2 ^ d, e, .inl hm, rfl, ?_⟩
      rw [zpow_add₀ two_ne_zero, zpow_natCast]
      push_cast
      ring
    · obtain ⟨d, rfl⟩ := Int.le.dest hLe
      refine ⟨m * 2 ^ d, n, f, .inr hn, ?_, rfl⟩
      rw [zpow_add₀ two_ne_zero, zpow_natCast]
      push_cast
      ring
  have hPow : (0 : ℝ) < 2 ^ e := by positivity
  have hNe : m ≠ n := fun hEq => h (by rw [hEq])
  have hInt := natAbs_le_mul_natAbs_sub (by norm_num) hNe hFew
  have hReal : |(m : ℝ)| ≤ 2 ^ (53 : ℤ) * |(m : ℝ) - n| := by exact_mod_cast hInt
  rw [← sub_mul, abs_mul, abs_mul, abs_of_pos hPow, ← mul_assoc]
  exact mul_le_mul_of_nonneg_right hReal hPow.le

theorem rounded_neg (x : ℝ) : rounded (-x) = -rounded x := by
  have hLimit := limit_pos
  rw [rounded, rounded, nearest_neg, confined, confined]
  split_ifs
  all_goals first
    | rfl
    | exact EReal.coe_neg _
    | linarith

theorem nearest_lt_limit (h : rounded x ≠ ⊤) : nearest x < limit := by
  by_contra hLarge
  exact h (confined_of_le (not_lt.mp hLarge))

theorem abs_nearest_le (h : |x| ≤ y) : |nearest x| ≤ nearest y := by
  obtain ⟨hLow, hHigh⟩ := abs_le.mp h
  refine abs_le.mpr ⟨?_, nearest_mono hHigh⟩
  rw [← nearest_neg]
  exact nearest_mono hLow

theorem abs_nearest_le_zpow {k : ℤ} (hk : -1074 ≤ k) (h : |x| ≤ 2 ^ k) : |nearest x| ≤ 2 ^ k := by
  have hLe := abs_nearest_le h
  rwa [nearest_eq_self (representable_zpow hk)] at hLe

theorem rounded_of_abs_le (h : |x| ≤ y) (hTop : rounded y ≠ ⊤) : rounded x = nearest x :=
  confined_of_lt ((abs_nearest_le h).trans_lt (nearest_lt_limit hTop))

theorem rounded_sub_self_ne_top (x : ℝ) : rounded (x - x) ≠ ⊤ := by
  rw [sub_self, denotes_zero.rounded_eq]
  exact EReal.coe_ne_top 0

theorem lt_of_rounded_lt (h : rounded x < rounded y) : x < y := by
  by_contra hLe
  exact absurd h (not_lt.mpr (rounded_mono (not_lt.mp hLe)))

theorem rounded_eq_nearest_of_nonneg (h : 0 ≤ x) (hTop : rounded x ≠ ⊤) : rounded x = nearest x :=
  rounded_of_abs_le (abs_of_nonneg h).le hTop

/-- What lies between two doubles does so when it is rounded. -/
theorem rounded_between {low high : ℝ} (hLow : rounded low = low) (hHigh : rounded high = high)
    (h₁ : low ≤ x) (h₂ : x ≤ high) :
    rounded x = nearest x ∧ low ≤ nearest x ∧ nearest x ≤ high := by
  have hAbove : (low : EReal) ≤ rounded x := hLow ▸ rounded_mono h₁
  have hBelow : rounded x ≤ (high : EReal) := hHigh ▸ rounded_mono h₂
  have hEq : rounded x = nearest x := by
    rw [rounded, confined] at hAbove hBelow ⊢
    split_ifs with hLarge hSmall
    · rw [if_pos hLarge] at hBelow
      exact absurd hBelow (not_le.mpr (EReal.coe_lt_top high))
    · rw [if_neg hLarge, if_pos hSmall] at hAbove
      exact absurd hAbove (not_le.mpr (EReal.bot_lt_coe low))
    · rfl
  rw [hEq] at hAbove hBelow
  exact ⟨hEq, EReal.coe_le_coe_iff.mp hAbove, EReal.coe_le_coe_iff.mp hBelow⟩

/-- A number of few digits that is neither too small nor too great is a double. -/
theorem rounded_of_digits {n e : ℤ} (hn : |n| < 2 ^ 53) (hLow : -1074 ≤ e) (hHigh : e ≤ 971)
    (hx : x = n * 2 ^ e) : rounded x = x := by
  refine rounded_eq_self ⟨n, e, hn, hLow, hx⟩ ?_
  have hDigits : |(n : ℝ)| < 2 ^ (53 : ℤ) := by exact_mod_cast hn
  calc
    |x| = |(n : ℝ)| * 2 ^ e := by rw [hx, abs_mul, abs_of_pos (by positivity : (0 : ℝ) < 2 ^ e)]
    _ < 2 ^ (53 : ℤ) * 2 ^ e := mul_lt_mul_of_pos_right hDigits (by positivity)
    _ ≤ 2 ^ (53 : ℤ) * 2 ^ (971 : ℤ) :=
      mul_le_mul_of_nonneg_left (zpow_le_zpow_right₀ one_le_two hHigh) (by positivity)
    _ = limit := (limit_eq (by norm_num)).symm

theorem rounded_zpow {k : ℤ} (hLow : -1074 ≤ k) (hHigh : k < 1024) :
    rounded ((2 : ℝ) ^ k) = ((2 ^ k : ℝ) : EReal) := by
  refine rounded_eq_self (representable_zpow hLow) ?_
  rw [abs_of_pos (by positivity), limit]
  exact zpow_lt_zpow_right₀ (by norm_num) hHigh

theorem rounded_zpow_ne_top {k : ℤ} (hLow : -1074 ≤ k) (hHigh : k < 1024) :
    rounded ((2 : ℝ) ^ k) ≠ ⊤ := by
  rw [rounded_zpow hLow hHigh]
  exact EReal.coe_ne_top _

/-- Below the numbers that have no place after the point, there is a double in every half. -/
theorem rounded_lt_of_le_sub_half (hy : |y| ≤ 2 ^ (52 : ℤ) - 1) (h : x ≤ y - 1 / 2) :
    rounded x < y := by
  obtain ⟨k, hk⟩ : ∃ k, k = ⌈2 * y⌉ - 1 := ⟨_, rfl⟩
  have hBelow : (k : ℝ) < 2 * y := by
    have hCeil := Int.ceil_lt_add_one (2 * y)
    rw [hk]
    push_cast
    linarith
  have hAbove : 2 * y - 1 ≤ k := by
    have hCeil := Int.le_ceil (2 * y)
    rw [hk]
    push_cast
    linarith
  obtain ⟨hLow, hHigh⟩ := abs_le.mp hy
  norm_num at hLow hHigh
  have hSize : |k| < 2 ^ 53 := by
    have hReal : |(k : ℝ)| < 2 ^ 53 := by
      rw [abs_lt]
      constructor <;> norm_num <;> linarith
    exact_mod_cast hReal
  have hRepresentable : Representable (k * 2 ^ (-1 : ℤ)) := ⟨k, -1, hSize, by norm_num, rfl⟩
  have hHalf : (k : ℝ) * 2 ^ (-1 : ℤ) = k / 2 := by
    rw [zpow_neg_one, div_eq_mul_inv]
  have hBound : |(k : ℝ) / 2| ≤ 2 ^ (53 : ℤ) := by
    rw [abs_le]
    constructor <;> norm_num <;> linarith
  rw [hHalf] at hRepresentable
  calc
    rounded x ≤ rounded (k / 2) := rounded_mono (by linarith)
    _ = ((k / 2 : ℝ) : EReal) := by
      rw [rounded_of_abs_le hBound (rounded_zpow_ne_top (by norm_num) (by norm_num)),
        nearest_eq_self hRepresentable]
    _ < y := EReal.coe_lt_coe_iff.mpr (by linarith)

end

/-- The roundings move the middle by last digits of the farther number at most, and by half of the least
positive double where the length has no digit left for its half. -/
theorem abs_halfway_sub_le {x y : ℝ} (hx : Granular x) (hy : Granular y) (h : x ≤ y) :
    |halfway x y - (x + y) / 2| ≤ max |x| |y| * 2 ^ (-52 : ℤ) + halfGrain := by
  -- with a name for each rounded result, the three errors add up
  obtain ⟨w, hw⟩ : ∃ w, w = nearest (y - x) := ⟨_, rfl⟩
  obtain ⟨m, hm⟩ : ∃ m, m = nearest (w / 2) := ⟨_, rfl⟩
  have hNonneg : 0 ≤ m := by
    rw [hm, hw]
    exact nearest_nonneg (div_nonneg (nearest_nonneg (sub_nonneg.mpr h)) zero_le_two)
  have hLe : m ≤ y - x := by
    rw [hm, hw]
    exact (hy.sub hx).nearest_half_le (sub_nonneg.mpr h)
  have hLength : |(w - (y - x)) / 2| ≤ |y - x| * 2 ^ (-53 : ℤ) / 2 := by
    rw [abs_div, abs_two, hw]
    exact div_le_div_of_nonneg_right (hy.sub hx).abs_nearest_sub_le zero_le_two
  have hHalf : |m - w / 2| ≤ halfGrain := by
    rw [hm, hw]
    exact (representable_nearest _).abs_nearest_half_sub_le
  have hSum : |nearest (x + m) - (x + m)| ≤ |x + m| * 2 ^ (-53 : ℤ) := by
    rw [hm]
    exact (hx.add (granular_nearest _)).abs_nearest_sub_le
  have hMiddle : |x + m| ≤ max |x| |y| := abs_le_max_abs_abs (by linarith) (by linarith)
  have hWidth : |y - x| ≤ 2 * max |x| |y| := by
    linarith [abs_sub y x, le_max_left |x| |y|, le_max_right |x| |y|]
  calc
    |halfway x y - (x + y) / 2| =
        |(nearest (x + m) - (x + m)) + (m - w / 2) + (w - (y - x)) / 2| := by
      rw [halfway, hm, hw]
      ring_nf
    _ ≤ |nearest (x + m) - (x + m)| + |m - w / 2| + |(w - (y - x)) / 2| := abs_add_three _ _ _
    _ ≤ |x + m| * 2 ^ (-53 : ℤ) + halfGrain + |y - x| * 2 ^ (-53 : ℤ) / 2 :=
      add_le_add (add_le_add hSum hHalf) hLength
    _ ≤ max |x| |y| * 2 ^ (-52 : ℤ) + halfGrain := by
      norm_num
      linarith

section

variable {x y : Float} {a b : ℝ}

theorem Denotes.granular (h : Denotes x a) : Granular a :=
  h.parts.representable.1.granular

/-- The difference of distinct numbers, infinite or not, is defined and does not vanish. -/
theorem Denotes.sub_ne_zero {v w : EReal} (hx : Denotes x v) (hy : Denotes y w) (h : v ≠ w) :
    ∃ u, Denotes (x - y) u ∧ u ≠ 0 := by
  induction v with
  | bot => exact ⟨⊥, Denotes.infinity_sub (s := .negative) hx hy h.symm, EReal.zero_ne_bot.symm⟩
  | top => exact ⟨⊤, Denotes.infinity_sub (s := .positive) hx hy h.symm, EReal.zero_ne_top.symm⟩
  | coe a =>
    induction w with
    | bot => exact ⟨⊤, Denotes.sub_infinity (s := .negative) hx hy, EReal.zero_ne_top.symm⟩
    | top => exact ⟨⊥, Denotes.sub_infinity (s := .positive) hx hy, EReal.zero_ne_bot.symm⟩
    | coe b =>
      refine ⟨_, hx.sub hy, (hx.granular.sub hy.granular).rounded_ne_zero ?_⟩
      exact sub_ne_zero_of_ne fun hEq => h (congrArg _ hEq)

theorem Denotes.halfway (hx : Denotes x a) (hy : Denotes y b) (h : a ≤ b)
    (hFinite : rounded (b - a) ≠ ⊤) :
    Denotes (x + (y - x) / 2.0) (halfway a b : ℝ) ∧ a ≤ halfway a b ∧ halfway a b ≤ b := by
  have hLength := rounded_eq_nearest_of_nonneg (sub_nonneg.mpr h) hFinite
  have hNonneg : 0 ≤ nearest (b - a) := nearest_nonneg (sub_nonneg.mpr h)
  have hDiff : Denotes (y - x) (nearest (b - a) : ℝ) := by
    rw [← hLength]
    exact hy.sub hx
  obtain ⟨hHalf, hHalfNonneg, -⟩ := rounded_between denotes_zero.rounded_eq hDiff.rounded_eq
    (div_nonneg hNonneg zero_le_two) (half_le_self hNonneg)
  have hHalfLe := (hy.granular.sub hx.granular).nearest_half_le (sub_nonneg.mpr h)
  have hQuot : Denotes ((y - x) / 2.0) (nearest (nearest (b - a) / 2) : ℝ) := by
    rw [← hHalf]
    exact hDiff.div denotes_two two_ne_zero
  obtain ⟨hSum, hAbove, hBelow⟩ := rounded_between hx.rounded_eq hy.rounded_eq
    (le_add_of_nonneg_right hHalfNonneg) (show a + nearest (nearest (b - a) / 2) ≤ b by linarith)
  refine ⟨?_, hAbove, hBelow⟩
  rw [Binary64.halfway, ← hSum]
  exact hx.add hQuot

/-- The middle may be infinite, but it is always defined. -/
theorem Denotes.exists_middle (hx : Denotes x a) (hy : Denotes y b) (h : a ≤ b) :
    ∃ t, Denotes (x + (y - x) / 2.0) t := by
  by_cases hFar : rounded (b - a) = ⊤
  · have hLength : Denotes (y - x) ⊤ := hFar ▸ hy.sub hx
    exact ⟨⊤, hx.add_top (EReal.coe_ne_bot a) (hLength.top_div denotes_two two_pos)⟩
  · exact ⟨_, (hx.halfway hy h hFar).1⟩

end

end FuzzyControl.Binary64
