import Mathlib

/-! # Rounding of real numbers

The result of an operation on doubles is the exact result, rounded to fifty-three significant bits, to
the nearest and of two nearest to the even one; below the normal numbers all results are multiples of
the least positive double, above them they are infinite. `rounded` is this function. It keeps the
order, and `rounded_eq_self` says that it leaves representable numbers as they are.
-/
namespace FuzzyControl.Binary64

set_option autoImplicit false

/-- The nearest integer, of two nearest the even one. -/
noncomputable def roundEven (x : ℝ) : ℤ :=
  if Int.fract x < 1 / 2 then ⌊x⌋
  else if 1 / 2 < Int.fract x then ⌊x⌋ + 1
  else if Even ⌊x⌋ then ⌊x⌋ else ⌊x⌋ + 1

theorem floor_le_roundEven (x : ℝ) : ⌊x⌋ ≤ roundEven x := by
  unfold roundEven
  split_ifs <;> omega

theorem roundEven_le_floor_add_one (x : ℝ) : roundEven x ≤ ⌊x⌋ + 1 := by
  unfold roundEven
  split_ifs <;> omega

@[simp] theorem roundEven_intCast (n : ℤ) : roundEven n = n := by
  simp [roundEven]

theorem roundEven_mono {x y : ℝ} (h : x ≤ y) : roundEven x ≤ roundEven y := by
  obtain hLt | hEq := (Int.floor_le_floor h).lt_or_eq
  · calc
      roundEven x ≤ ⌊x⌋ + 1 := roundEven_le_floor_add_one x
      _ ≤ ⌊y⌋ := hLt
      _ ≤ roundEven y := floor_le_roundEven y
  · have hFract : Int.fract x ≤ Int.fract y := by
      rw [Int.fract, Int.fract, hEq]
      linarith
    unfold roundEven
    rw [hEq]
    split_ifs <;> first | omega | linarith

theorem roundEven_neg (x : ℝ) : roundEven (-x) = -roundEven x := by
  by_cases hInt : Int.fract x = 0
  · obtain ⟨n, rfl⟩ := Int.fract_eq_zero_iff.mp hInt
    rw [← Int.cast_neg, roundEven_intCast, roundEven_intCast]
  · have hFract : Int.fract (-x) = 1 - Int.fract x := Int.fract_neg hInt
    have hFloor : ⌊-x⌋ = -⌊x⌋ - 1 := by
      have h := Int.floor_add_fract x
      have h' := Int.floor_add_fract (-x)
      rw [hFract] at h'
      have hSum : ((⌊-x⌋ : ℤ) : ℝ) = ((-⌊x⌋ - 1 : ℤ) : ℝ) := by
        push_cast
        linarith
      exact_mod_cast hSum
    have hParity : Even (-⌊x⌋ - 1) ↔ ¬ Even ⌊x⌋ := by
      rw [Int.even_sub_one, even_neg]
    unfold roundEven
    rw [hFract, hFloor]
    simp only [hParity]
    split_ifs <;> first | omega | linarith

/-- The exponent of the last place of a double near `x`. -/
noncomputable def lastPlace (x : ℝ) : ℤ := max (Int.log 2 |x| - 52) (-1074)

noncomputable def nearest (x : ℝ) : ℝ := roundEven (x / 2 ^ lastPlace x) * 2 ^ lastPlace x

/-- The middle of two numbers as it is computed: their distance, half of it and the sum are rounded. -/
noncomputable def halfway (x y : ℝ) : ℝ := nearest (x + nearest (nearest (y - x) / 2))

/-- The numbers of at most fifty-three bits that are multiples of the least positive double. -/
def Representable (x : ℝ) : Prop :=
  ∃ (n e : ℤ), |n| < 2 ^ 53 ∧ -1074 ≤ e ∧ x = n * 2 ^ e

/-- The multiples of the least positive double. -/
def Granular (x : ℝ) : Prop :=
  ∃ k : ℤ, x = k * 2 ^ (-1074 : ℤ)

/-- The multiples of the last place that doubles between a half and one have. -/
def Fractional (x : ℝ) : Prop :=
  ∃ k : ℤ, x = k * 2 ^ (-53 : ℤ)

/-- By what factor `n` roundings can enlarge a number. -/
noncomputable def growth (n : ℕ) : ℝ := (1 + 2 ^ (-53 : ℤ)) ^ n

/-- Half of the least positive double: how far a product can be moved beside that. -/
noncomputable def halfGrain : ℝ := 2 ^ (-1075 : ℤ)

theorem le_lastPlace (x : ℝ) : -1074 ≤ lastPlace x :=
  le_max_right _ _

theorem lastPlace_of_pos {x : ℝ} (hx : 0 < x) :
    lastPlace x = max (Int.log 2 x - 52) (-1074) := by
  rw [lastPlace, abs_of_pos hx]

@[simp] theorem lastPlace_neg (x : ℝ) : lastPlace (-x) = lastPlace x := by
  rw [lastPlace, abs_neg, lastPlace]

theorem nearest_neg (x : ℝ) : nearest (-x) = -nearest x := by
  rw [nearest, lastPlace_neg, neg_div, roundEven_neg, nearest]
  push_cast
  ring

/-- A multiple of the last place is not passed by rounding up to it. -/
theorem roundEven_mul_le {x : ℝ} {s k n : ℤ} (hs : s ≤ k) (h : x ≤ n * 2 ^ k) :
    (roundEven (x / 2 ^ s) : ℝ) * 2 ^ s ≤ n * 2 ^ k := by
  obtain ⟨d, rfl⟩ := Int.le.dest hs
  have hPos : (0 : ℝ) < 2 ^ s := by positivity
  have hSplit : (n : ℝ) * 2 ^ (s + (d : ℤ)) = ((n * 2 ^ d : ℤ) : ℝ) * 2 ^ s := by
    rw [zpow_add₀ two_ne_zero, zpow_natCast]
    push_cast
    ring
  rw [hSplit] at h ⊢
  have hQuot : x / 2 ^ s ≤ ((n * 2 ^ d : ℤ) : ℝ) := (div_le_iff₀ hPos).mpr h
  have hRound : roundEven (x / 2 ^ s) ≤ n * 2 ^ d := by
    simpa only [roundEven_intCast] using roundEven_mono hQuot
  exact mul_le_mul_of_nonneg_right (by exact_mod_cast hRound) hPos.le

theorem le_roundEven_mul {x : ℝ} {s k n : ℤ} (hs : s ≤ k) (h : n * 2 ^ k ≤ x) :
    (n : ℝ) * 2 ^ k ≤ roundEven (x / 2 ^ s) * 2 ^ s := by
  have hNeg : -x ≤ ((-n : ℤ) : ℝ) * 2 ^ k := by
    push_cast
    linarith
  have hRound := roundEven_mul_le hs hNeg
  rw [neg_div, roundEven_neg] at hRound
  push_cast at hRound
  linarith

theorem nearest_of_multiple {x : ℝ} {n k : ℤ} (hs : lastPlace x ≤ k) (h : x = n * 2 ^ k) :
    nearest x = x :=
  le_antisymm ((roundEven_mul_le hs h.le).trans h.ge) (h.le.trans (le_roundEven_mul hs h.ge))

@[simp] theorem nearest_zero : nearest 0 = 0 := by
  have h : lastPlace 0 ≤ 0 := by simp [lastPlace]
  exact nearest_of_multiple (n := 0) h (by simp)

theorem nearest_eq_self {x : ℝ} (h : Representable x) : nearest x = x := by
  obtain ⟨n, e, hn, he, hx⟩ := h
  obtain rfl | hne := eq_or_ne n 0
  · simp only [Int.cast_zero, zero_mul] at hx
    rw [hx, nearest_zero]
  · refine nearest_of_multiple ?_ hx
    have hPos : (0 : ℝ) < |x| := by
      rw [hx]
      positivity
    have hLt : |x| < (2 : ℝ) ^ (53 + e) := by
      rw [hx, abs_mul, abs_of_pos (by positivity : (0 : ℝ) < 2 ^ e), zpow_add₀ two_ne_zero]
      have : (|(n : ℝ)|) < 2 ^ (53 : ℤ) := by exact_mod_cast hn
      exact mul_lt_mul_of_pos_right this (by positivity)
    have hLog : Int.log 2 |x| < 53 + e :=
      (Int.lt_zpow_iff_log_lt (by norm_num) hPos).mp (by exact_mod_cast hLt)
    exact max_le (by omega) he

/-- Rounding can carry into a fifty-fourth bit, but not beyond. -/
theorem roundEven_lastPlace_le {x : ℝ} (hx : 0 < x) :
    roundEven (x / 2 ^ lastPlace x) ≤ 2 ^ 53 := by
  have hLog : Int.log 2 x + 1 ≤ 53 + lastPlace x := by
    rw [lastPlace_of_pos hx]
    omega
  have hBelow : x ≤ 2 ^ (53 + lastPlace x) := by
    have hNext : x < (2 : ℝ) ^ (Int.log 2 x + 1) := by
      exact_mod_cast Int.lt_zpow_succ_log_self (b := 2) (by norm_num) x
    exact hNext.le.trans (zpow_le_zpow_right₀ (by norm_num) hLog)
  have hQuot : x / 2 ^ lastPlace x ≤ ((2 ^ 53 : ℤ) : ℝ) := by
    rw [div_le_iff₀ (by positivity)]
    rw [zpow_add₀ two_ne_zero] at hBelow
    exact_mod_cast hBelow
  simpa only [roundEven_intCast] using roundEven_mono hQuot

theorem le_roundEven_lastPlace {x : ℝ} (hx : 0 < x) :
    2 ^ 52 ≤ roundEven (x / 2 ^ lastPlace x) ∨ lastPlace x = -1074 := by
  obtain hNormal | hLowest := (le_lastPlace x).lt_or_eq
  · left
    have hLog : 52 + lastPlace x ≤ Int.log 2 x := by
      rw [lastPlace_of_pos hx] at hNormal ⊢
      omega
    have hAbove : (2 : ℝ) ^ (52 + lastPlace x) ≤ x := by
      have hLead : (2 : ℝ) ^ Int.log 2 x ≤ x := by
        exact_mod_cast Int.zpow_log_le_self (b := 2) (by norm_num) hx
      exact (zpow_le_zpow_right₀ (by norm_num) hLog).trans hLead
    have hQuot : ((2 ^ 52 : ℤ) : ℝ) ≤ x / 2 ^ lastPlace x := by
      rw [le_div_iff₀ (by positivity)]
      rw [zpow_add₀ two_ne_zero] at hAbove
      exact_mod_cast hAbove
    simpa only [roundEven_intCast] using roundEven_mono hQuot
  · exact .inr hLowest.symm

theorem nearest_mono_of_pos {x y : ℝ} (hx : 0 < x) (h : x ≤ y) : nearest x ≤ nearest y := by
  have hy : 0 < y := hx.trans_le h
  have hLog : Int.log 2 x ≤ Int.log 2 y := Int.log_mono_right hx h
  rcases (show lastPlace x ≤ lastPlace y by
    rw [lastPlace_of_pos hx, lastPlace_of_pos hy]; omega).eq_or_lt with hEq | hLt
  · have hPos : (0 : ℝ) < 2 ^ lastPlace y := by positivity
    have hQuot : x / 2 ^ lastPlace y ≤ y / 2 ^ lastPlace y := div_le_div_of_nonneg_right h hPos.le
    rw [nearest, nearest, hEq]
    exact mul_le_mul_of_nonneg_right (by exact_mod_cast roundEven_mono hQuot) hPos.le
  · -- the leading power of two of `y` lies between the two results
    rw [lastPlace_of_pos hx, lastPlace_of_pos hy] at hLt
    have hBelow : x ≤ ((1 : ℤ) : ℝ) * 2 ^ Int.log 2 y := by
      have hNext : x < (2 : ℝ) ^ (Int.log 2 x + 1) := by
        exact_mod_cast Int.lt_zpow_succ_log_self (b := 2) (by norm_num) x
      have hPow : (2 : ℝ) ^ (Int.log 2 x + 1) ≤ 2 ^ Int.log 2 y :=
        zpow_le_zpow_right₀ (by norm_num) (by omega)
      rw [Int.cast_one, one_mul]
      exact hNext.le.trans hPow
    have hAbove : ((1 : ℤ) : ℝ) * 2 ^ Int.log 2 y ≤ y := by
      rw [Int.cast_one, one_mul]
      exact_mod_cast Int.zpow_log_le_self (b := 2) (by norm_num) hy
    refine (roundEven_mul_le ?_ hBelow).trans (le_roundEven_mul ?_ hAbove)
    · rw [lastPlace_of_pos hx]
      omega
    · rw [lastPlace_of_pos hy]
      omega

theorem nearest_nonneg {x : ℝ} (h : 0 ≤ x) : 0 ≤ nearest x := by
  have hZero : ((0 : ℤ) : ℝ) * 2 ^ lastPlace x ≤ x := by simpa using h
  simpa [nearest] using le_roundEven_mul le_rfl hZero

theorem nearest_mono {x y : ℝ} (h : x ≤ y) : nearest x ≤ nearest y := by
  obtain hx | rfl | hx := lt_trichotomy x 0
  · obtain hy | hy := le_or_gt 0 y
    · have hNonneg := nearest_nonneg (x := -x) (by linarith)
      rw [nearest_neg] at hNonneg
      linarith [nearest_nonneg hy]
    · have hMirror := nearest_mono_of_pos (x := -y) (y := -x) (by linarith) (by linarith)
      rw [nearest_neg, nearest_neg] at hMirror
      linarith
  · rw [nearest_zero]
    exact nearest_nonneg h
  · exact nearest_mono_of_pos hx h

/-- The least magnitude that is too great for a double. -/
noncomputable def limit : ℝ := 2 ^ (1024 : ℤ)

theorem limit_pos : 0 < limit := by
  rw [limit]
  positivity

theorem limit_eq {k l : ℤ} (h : k + l = 1024) : limit = 2 ^ k * 2 ^ l := by
  rw [limit, ← h, zpow_add₀ two_ne_zero]

/-- The extended real in the place of a rounded result, which may be out of range. -/
noncomputable def confined (v : ℝ) : EReal :=
  if limit ≤ v then ⊤ else if v ≤ -limit then ⊥ else v

noncomputable def rounded (x : ℝ) : EReal := confined (nearest x)

theorem confined_mono {v w : ℝ} (h : v ≤ w) : confined v ≤ confined w := by
  unfold confined
  split_ifs
  all_goals first
    | exact le_rfl
    | exact le_top
    | exact bot_le
    | exact EReal.coe_le_coe_iff.mpr h
    | linarith

theorem confined_of_le {v : ℝ} (h : limit ≤ v) : confined v = ⊤ :=
  if_pos h

theorem confined_of_le_neg {v : ℝ} (h : v ≤ -limit) : confined v = ⊥ := by
  have hPos := limit_pos
  rw [confined, if_neg (by linarith), if_pos h]

theorem confined_of_lt {v : ℝ} (h : |v| < limit) : confined v = v := by
  obtain ⟨hLow, hHigh⟩ := abs_lt.mp h
  rw [confined, if_neg (not_le.mpr hHigh), if_neg (not_le.mpr hLow)]

@[simp] theorem confined_zero : confined 0 = 0 := by
  have hBound : |(0 : ℝ)| < limit := by
    rw [abs_zero]
    exact limit_pos
  rw [confined_of_lt hBound, EReal.coe_zero]

theorem rounded_mono {x y : ℝ} (h : x ≤ y) : rounded x ≤ rounded y :=
  confined_mono (nearest_mono h)

theorem rounded_eq_self {x : ℝ} (h : Representable x) (hBound : |x| < limit) :
    rounded x = x := by
  rw [rounded, nearest_eq_self h, confined_of_lt hBound]

end FuzzyControl.Binary64
