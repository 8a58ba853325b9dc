import FuzzyControl.Proofs.Plateau

/-! # Where the centroid lies

The centroid is found on the line through the top middle with the slope `skew`, which is the horizontal
distance of the middles and not the slope of the line through both. So it lies about
`(1 - height) / skew` before the top middle. For shapes whose middles are at least one apart this is
less than the distance of the middles, and the centroid lies between them as far as rounding allows; for
narrow shapes it is more than the width, and the centroid lies outside of the support unless both
middles agree. If the width is no double, then the centroid is none of the support either.
-/
namespace FuzzyControl.Shape

open Binary64

set_option autoImplicit false

def width (s : Shape) : Float := s.corners.d - s.corners.a

def bottomMiddle (s : Shape) : Float := s.corners.a + s.width / 2.0

/-- What the centroid takes for the slope of the line through both middles. -/
def skew (s : Shape) : Float := s.middleOfMaximum - s.bottomMiddle

/-- The height of the centre of gravity of a trapezoid. -/
def height (s : Shape) : Float :=
  ((2.0 * (s.corners.c - s.corners.b)) + s.width) / ((s.corners.c - s.corners.b) + s.width) / 3.0

theorem centroid_eq (s : Shape) :
    s.centroid =
      if s.middleOfMaximum == s.bottomMiddle then s.middleOfMaximum
      else (s.height - (1.0 - s.middleOfMaximum * s.skew)) / s.skew :=
  rfl

/-- The double `x` lies between the ends of the support. -/
def Supports (s : Shape) (x : Float) : Prop := s.support.1 ≤ x ∧ x ≤ s.support.2

instance (s : Shape) (x : Float) : Decidable (s.Supports x) :=
  inferInstanceAs (Decidable (s.support.1 ≤ x ∧ x ≤ s.support.2))

/-- The middles are at least one apart, and what is computed from them stays small enough for fractions
to be kept. -/
structure Wide (s : Shape) : Prop where
  finite : (3.0 * s.width).isFinite = true
  apart : 1.0 ≤ s.skew ∨ s.skew ≤ -1.0
  low : -281474976710656.0 ≤ s.middleOfMaximum * s.skew
  high : s.middleOfMaximum * s.skew ≤ 281474976710656.0

section

variable {t r m n y z p q : ℝ}

/-- What three roundings add to the height of the line over the origin. -/
theorem abs_nearest_offset_sub_le (hLow : 0 ≤ y) (hHigh : y ≤ 1) (h : |p| ≤ 2 ^ (52 : ℤ)) :
    |nearest (y - nearest (1 - nearest p)) - (p - (1 - y))| ≤
      3 * |p| * 2 ^ (-53 : ℤ) + 2 ^ (-40 : ℤ) := by
  -- with a name for each rounded result, the sizes and the errors depend on each other linearly
  obtain ⟨u, hu⟩ : ∃ u, u = nearest p := ⟨_, rfl⟩
  obtain ⟨v, hv⟩ : ∃ v, v = nearest (1 - u) := ⟨_, rfl⟩
  obtain ⟨w, hw⟩ : ∃ w, w = nearest (y - v) := ⟨_, rfl⟩
  have hError : ∀ x : ℝ, |nearest x - x| ≤ |x| * 2 ^ (-53 : ℤ) + 2 ^ (-60 : ℤ) := fun x =>
    (abs_nearest_sub_le x).trans
      (add_le_add_right (zpow_le_zpow_right₀ one_le_two (by norm_num)) _)
  have hFirst := hError p
  have hSecond := hError (1 - u)
  have hThird := hError (y - v)
  rw [← hu] at hFirst
  rw [← hv] at hSecond
  rw [← hw] at hThird
  rw [← hu, ← hv, ← hw]
  have hMinuend : |1 - u| ≤ 1 + |p| + |u - p| := by
    calc
      |1 - u| = |1 - p - (u - p)| := by ring_nf
      _ ≤ |1 - p| + |u - p| := abs_sub _ _
      _ ≤ 1 + |p| + |u - p| := by linarith [abs_sub 1 p, abs_one (α := ℝ)]
  have hLast : |y - v| ≤ 1 + |1 - u| + |v - (1 - u)| := by
    calc
      |y - v| = |y - (1 - u) - (v - (1 - u))| := by ring_nf
      _ ≤ |y - (1 - u)| + |v - (1 - u)| := abs_sub _ _
      _ ≤ 1 + |1 - u| + |v - (1 - u)| := by linarith [abs_sub y (1 - u), abs_of_nonneg hLow]
  have hTotal : |w - (p - (1 - y))| ≤ |w - (y - v)| + |v - (1 - u)| + |u - p| := by
    calc
      |w - (p - (1 - y))| = |w - (y - v) - (v - (1 - u)) + (u - p)| := by ring_nf
      _ ≤ |w - (y - v) - (v - (1 - u))| + |u - p| := abs_add_le _ _
      _ ≤ |w - (y - v)| + |v - (1 - u)| + |u - p| := by linarith [abs_sub (w - (y - v)) (v - (1 - u))]
  norm_num at h hFirst hSecond hThird ⊢
  linarith

theorem abs_offset_le (hLow : 0 ≤ y) (hHigh : y ≤ 1) (h : |p| ≤ 2 ^ (52 : ℤ)) :
    |1 - nearest p| ≤ 2 ^ (53 : ℤ) ∧ |y - nearest (1 - nearest p)| ≤ 2 ^ (54 : ℤ) := by
  have hProduct := abs_le.mp (abs_nearest_le_zpow (by norm_num) h)
  have hOffset : |1 - nearest p| ≤ 2 ^ (53 : ℤ) := by
    rw [abs_le]
    norm_num at hProduct ⊢
    constructor <;> linarith
  have hRounded := abs_le.mp (abs_nearest_le_zpow (by norm_num) hOffset)
  refine ⟨hOffset, abs_le.mpr ?_⟩
  norm_num at hRounded ⊢
  constructor <;> linarith

theorem between_of_one_le (hm : 1 ≤ m) (h₁ : 7 / 16 ≤ z) (h₂ : z ≤ 11 / 16)
    (h : |n - (t * m - z)| ≤ 1 / 4) : t - 15 / 16 ≤ n / m ∧ n / m ≤ t := by
  have hPos : 0 < m := zero_lt_one.trans_le hm
  obtain ⟨hLow, hHigh⟩ := abs_le.mp h
  constructor
  · rw [le_div_iff₀ hPos]
    linarith
  · rw [div_le_iff₀ hPos]
    linarith

theorem div_le_of_le_part (hPos : 0 < m) (hm : m ≤ 33 / 128) (h₁ : 7 / 16 ≤ z)
    (h : |n - (t * m - z)| ≤ 13 / 64) : n / m ≤ t - 29 / 32 := by
  obtain ⟨-, hHigh⟩ := abs_le.mp h
  rw [div_le_iff₀ hPos]
  linarith

theorem nearest_sub_symm (x y : ℝ) : nearest (x - y) = -nearest (y - x) := by
  rw [← nearest_neg, neg_sub]

/-- Where the middles are at least one apart, the line is left between them. -/
theorem between_of_apart (hApart : 1 ≤ nearest (t - r) ∨ 1 ≤ nearest (r - t)) (h₁ : 7 / 16 ≤ z)
    (h₂ : z ≤ 11 / 16) (h : |n - (t * nearest (t - r) - z)| ≤ 1 / 4) :
    r ≤ n / nearest (t - r) ∧ n / nearest (t - r) ≤ t ∨
      t ≤ n / nearest (t - r) ∧ n / nearest (t - r) ≤ r := by
  have hBound : Representable (15 / 16) := ⟨15, -4, by norm_num, by norm_num, by norm_num⟩
  obtain hAfter | hBefore := hApart
  · left
    obtain ⟨hFrom, hTo⟩ := between_of_one_le hAfter h₁ h₂ h
    have hFar := hBound.lt_of_lt_nearest (x := t - r) (by linarith)
    exact ⟨by linarith, hTo⟩
  · -- by reflection at the origin, which changes neither the product nor the height
    right
    rw [nearest_sub_symm t r, mul_neg, ← neg_mul] at h
    obtain ⟨hFrom, hTo⟩ := between_of_one_le hBefore h₁ h₂ h
    have hFar := hBound.lt_of_lt_nearest (x := r - t) (by linarith)
    rw [nearest_sub_symm t r, div_neg]
    constructor <;> linarith

/-- Where they are near each other, it is left far away from them. -/
theorem far_of_near (ht : Granular t) (hr : Granular r) (hNe : t ≠ r)
    (hNear : |nearest (t - r)| ≤ 33 / 128) (h₁ : 7 / 16 ≤ z)
    (h : |n - (t * nearest (t - r) - z)| ≤ 13 / 64) :
    n / nearest (t - r) ≤ t - 29 / 32 ∨ t + 29 / 32 ≤ n / nearest (t - r) := by
  obtain ⟨hLow, hHigh⟩ := abs_le.mp hNear
  obtain hBefore | hAfter := hNe.lt_or_gt
  · right
    have hPos := (hr.sub ht).nearest_pos (sub_pos.mpr hBefore)
    rw [nearest_sub_symm t r] at hLow
    rw [nearest_sub_symm t r, mul_neg, ← neg_mul] at h
    have hLeft := div_le_of_le_part hPos (by linarith) h₁ h
    rw [nearest_sub_symm t r, div_neg]
    linarith
  · left
    have hPos := (ht.sub hr).nearest_pos (sub_pos.mpr hAfter)
    exact div_le_of_le_part hPos hHigh h₁ h

/-- The two sides of a trapezoid weigh at most three halves of their sum, up to rounding. -/
theorem share_nearest_between (hp : Granular p) (hq : Granular q) (hNonneg : 0 ≤ p) (hLe : p ≤ q)
    (hPos : 0 < q) : 0 < nearest (p + q) ∧
      1 ≤ nearest (2 * p + q) / nearest (p + q) ∧
      nearest (2 * p + q) / nearest (p + q) ≤ 13 / 8 := by
  have hSum : 0 < nearest (p + q) := (hp.add hq).nearest_pos (by linarith)
  have hWeighted : Granular (2 * p + q) := by
    rw [two_mul, add_assoc]
    exact hp.add (hp.add hq)
  have hErr := (hp.add hq).abs_nearest_sub_le
  have hErr' := hWeighted.abs_nearest_sub_le
  rw [abs_of_nonneg (show 0 ≤ p + q by linarith), abs_le] at hErr
  rw [abs_of_nonneg (show 0 ≤ 2 * p + q by linarith), abs_le] at hErr'
  norm_num at hErr hErr'
  refine ⟨hSum, ?_, ?_⟩
  · rw [one_le_div hSum]
    exact nearest_mono (by linarith)
  · rw [div_le_iff₀ hSum]
    linarith

/-- A third of such a quotient, which is the height, is about a third or a half. -/
theorem third_between (h₁ : 1 ≤ q) (h₂ : q ≤ 13 / 8) :
    rounded (nearest q / 3) = nearest (nearest q / 3) ∧ rounded q = nearest q ∧
      5 / 16 ≤ nearest (nearest q / 3) ∧ nearest (nearest q / 3) ≤ 9 / 16 := by
  have hMost : rounded (13 / 8) = ((13 / 8 : ℝ) : EReal) :=
    rounded_of_digits (n := 13) (e := -3) (by norm_num) (by norm_num) (by norm_num) (by norm_num)
  have hFlat : rounded (5 / 16) = ((5 / 16 : ℝ) : EReal) :=
    rounded_of_digits (n := 5) (e := -4) (by norm_num) (by norm_num) (by norm_num) (by norm_num)
  have hSteep : rounded (9 / 16) = ((9 / 16 : ℝ) : EReal) :=
    rounded_of_digits (n := 9) (e := -4) (by norm_num) (by norm_num) (by norm_num) (by norm_num)
  obtain ⟨hQuotient, hAbove, hBelow⟩ := rounded_between denotes_one.rounded_eq hMost h₁ h₂
  obtain ⟨hThird, hLow, hHigh⟩ :=
    rounded_between hFlat hSteep (x := nearest q / 3) (by linarith) (by linarith)
  exact ⟨hThird, hQuotient, hLow, hHigh⟩

end

/-- The middles are the real numbers `t` and `r`, and the width is a double. -/
structure Centred (s : Shape) (a b c d t r : ℝ) : Prop extends Located s a b c d where
  width_ne_top : rounded (d - a) ≠ ⊤
  denotes_top : Denotes s.middleOfMaximum t
  denotes_bottom : Denotes s.bottomMiddle r
  b_le_top : b ≤ t
  top_le_c : t ≤ c
  a_le_bottom : a ≤ r
  bottom_le_d : r ≤ d

section

variable {s : Shape} {a b c d t r : ℝ}

theorem Located.top_le_width (hs : s.Located a b c d) : c - b ≤ d - a := by
  linarith [hs.a_le_b, hs.c_le_d]

theorem Located.a_le_d (hs : s.Located a b c d) : a ≤ d :=
  (hs.a_le_b.trans hs.b_le_c).trans hs.c_le_d

theorem Located.isFinite_width (hs : s.Located a b c d) :
    s.width.isFinite = true ↔ rounded (d - a) ≠ ⊤ :=
  isFinite_iff_of_nonneg (hs.denotes_d.sub hs.denotes_a) (sub_nonneg.mpr hs.a_le_d)

theorem Located.plateau_ne_top (hs : s.Located a b c d) (h : rounded (d - a) ≠ ⊤) :
    rounded (c - b) ≠ ⊤ := by
  intro hTop
  have hLe := rounded_mono hs.top_le_width
  rw [hTop, top_le_iff] at hLe
  exact h hLe

theorem Located.exists_centred (hs : s.Located a b c d) (h : rounded (d - a) ≠ ⊤) :
    ∃ t r, s.Centred a b c d t r := by
  obtain ⟨ht, hbt, htc⟩ := hs.denotes_middle (hs.plateau_ne_top h)
  obtain ⟨hr, har, hrd⟩ := hs.denotes_a.halfway hs.denotes_d hs.a_le_d h
  exact ⟨_, _, hs, h, ht, hr, hbt, htc, har, hrd⟩

namespace Centred

theorem denotes_width (hs : s.Centred a b c d t r) : Denotes s.width (nearest (d - a) : ℝ) := by
  rw [← rounded_eq_nearest_of_nonneg (sub_nonneg.mpr hs.a_le_d) hs.width_ne_top]
  exact hs.denotes_d.sub hs.denotes_a

theorem denotes_plateau (hs : s.Centred a b c d t r) :
    Denotes (s.corners.c - s.corners.b) (nearest (c - b) : ℝ) := by
  rw [← rounded_eq_nearest_of_nonneg (sub_nonneg.mpr hs.b_le_c)
    (hs.plateau_ne_top hs.width_ne_top)]
  exact hs.denotes_c.sub hs.denotes_b

theorem apart_le (hs : s.Centred a b c d t r) : |t - r| ≤ d - a := by
  rw [abs_le]
  constructor <;> linarith [hs.a_le_b, hs.b_le_top, hs.top_le_c, hs.c_le_d, hs.a_le_bottom,
    hs.bottom_le_d]

theorem denotes_skew (hs : s.Centred a b c d t r) : Denotes s.skew (nearest (t - r) : ℝ) := by
  rw [← rounded_of_abs_le hs.apart_le hs.width_ne_top]
  exact hs.denotes_top.sub hs.denotes_bottom

theorem beq_iff (hs : s.Centred a b c d t r) :
    (s.middleOfMaximum == s.bottomMiddle) = true ↔ t = r := by
  rw [hs.denotes_top.beq_iff hs.denotes_bottom, EReal.coe_eq_coe_iff]

theorem a_lt_d (hs : s.Centred a b c d t r) (hNe : t ≠ r) : a < d := by
  have hPos := abs_pos.mpr (sub_ne_zero.mpr hNe)
  linarith [hs.apart_le]

/-- The height is between a third and a half, up to rounding. -/
theorem denotes_height (hs : s.Centred a b c d t r) (hLt : a < d)
    (h : rounded (3 * nearest (d - a)) ≠ ⊤) :
    ∃ y : ℝ, Denotes s.height y ∧ 5 / 16 ≤ y ∧ y ≤ 9 / 16 := by
  have hPlateau := hs.denotes_plateau
  have hWidth := hs.denotes_width
  have hNonneg : 0 ≤ nearest (c - b) := nearest_nonneg (sub_nonneg.mpr hs.b_le_c)
  have hLe : nearest (c - b) ≤ nearest (d - a) := nearest_mono hs.top_le_width
  have hPos : 0 < nearest (d - a) :=
    (hs.denotes_d.granular.sub hs.denotes_a.granular).nearest_pos (sub_pos.mpr hLt)
  generalize nearest (c - b) = p at hPlateau hNonneg hLe
  generalize nearest (d - a) = q at hWidth hLe hPos h
  have hInRange : ∀ {x : ℝ}, 0 ≤ x → x ≤ 3 * q → rounded x = nearest x := fun h₁ h₂ =>
    rounded_of_abs_le ((abs_of_nonneg h₁).le.trans h₂) h
  have hDouble : Denotes (2.0 * (s.corners.c - s.corners.b)) ((2 * p : ℝ) : EReal) := by
    have hExact := nearest_eq_self hPlateau.parts.representable.1.two_mul
    rw [← hExact, ← hInRange (by linarith) (by linarith)]
    exact denotes_two.mul hPlateau
  have hUpper : Denotes (2.0 * (s.corners.c - s.corners.b) + s.width) (nearest (2 * p + q) : ℝ) := by
    rw [← hInRange (by linarith) (by linarith)]
    exact hDouble.add hWidth
  have hLower : Denotes (s.corners.c - s.corners.b + s.width) (nearest (p + q) : ℝ) := by
    rw [← hInRange (by linarith) (by linarith)]
    exact hPlateau.add hWidth
  obtain ⟨hSum, hOne, hShare⟩ :=
    share_nearest_between hPlateau.granular hWidth.granular hNonneg hLe hPos
  obtain ⟨hThird, hQuotient, hLow, hHigh⟩ := third_between hOne hShare
  have hWeight := hUpper.div hLower hSum.ne'
  rw [hQuotient] at hWeight
  have hHeight := hWeight.div denotes_three three_ne_zero
  rw [hThird] at hHeight
  exact ⟨_, hHeight, hLow, hHigh⟩

/-- If the middles differ, then the centroid is the quotient of a height, whose error is small against
the exact one, and the skew. -/
theorem denotes_centroid (hs : s.Centred a b c d t r) (hNe : t ≠ r)
    (hTriple : rounded (3 * nearest (d - a)) ≠ ⊤) (hNear : |t * nearest (t - r)| ≤ 2 ^ (52 : ℤ)) :
    ∃ n z : ℝ, Denotes s.centroid (rounded (n / nearest (t - r))) ∧ 7 / 16 ≤ z ∧ z ≤ 11 / 16 ∧
      |n - (t * nearest (t - r) - z)| ≤
        3 * |t * nearest (t - r)| * 2 ^ (-53 : ℤ) + 2 ^ (-40 : ℤ) := by
  have hSkew := hs.denotes_skew
  have hSkewNe : nearest (t - r) ≠ 0 :=
    (hs.denotes_top.granular.sub hs.denotes_bottom.granular).nearest_ne_zero (sub_ne_zero.mpr hNe)
  obtain ⟨y, hHeight, hLow, hHigh⟩ := hs.denotes_height (hs.a_lt_d hNe) hTriple
  generalize nearest (t - r) = m at hSkew hSkewNe hNear ⊢
  -- the results before the division stay in range, the quotient need not
  obtain ⟨hOffset, hRest⟩ := abs_offset_le (y := y) (by linarith) (by linarith) hNear
  have hInRange : ∀ {x : ℝ} {k : ℤ}, |x| ≤ 2 ^ k → k ≤ 54 → rounded x = nearest x := fun h hk =>
    rounded_of_abs_le (h.trans (zpow_le_zpow_right₀ one_le_two hk))
      (rounded_zpow_ne_top (by norm_num) (by norm_num))
  have hPoint := hs.denotes_top.mul hSkew
  rw [hInRange hNear (by norm_num)] at hPoint
  have hStart := denotes_one.sub hPoint
  rw [hInRange hOffset (by norm_num)] at hStart
  have hDrop := hHeight.sub hStart
  rw [hInRange hRest le_rfl] at hDrop
  refine ⟨_, 1 - y, ?_, by linarith, by linarith,
    abs_nearest_offset_sub_le (by linarith) (by linarith) hNear⟩
  rw [centroid_eq, if_neg (mt hs.beq_iff.mp hNe)]
  exact hDrop.div hSkew hSkewNe

theorem supports_iff (hs : s.Centred a b c d t r) {x : Float} {v : EReal} (hx : Denotes x v) :
    s.Supports x ↔ a ≤ v ∧ v ≤ d :=
  and_congr (hs.denotes_a.le_iff hx) (hx.le_iff hs.denotes_d)

/-- What lies between the middles, or at one of them, lies in the support. -/
theorem supports_of_between (hs : s.Centred a b c d t r) {x : ℝ} {v : Float}
    (hv : Denotes v (rounded x)) (h : r ≤ x ∧ x ≤ t ∨ t ≤ x ∧ x ≤ r) : s.Supports v := by
  have hAbove : a ≤ x := by
    obtain h | h := h <;> linarith [hs.a_le_b, hs.b_le_top, hs.a_le_bottom]
  have hBelow : x ≤ d := by
    obtain h | h := h <;> linarith [hs.top_le_c, hs.c_le_d, hs.bottom_le_d]
  obtain ⟨hx, hLow, hHigh⟩ :=
    rounded_between hs.denotes_a.rounded_eq hs.denotes_d.rounded_eq hAbove hBelow
  rw [hs.supports_iff hv, hx, EReal.coe_le_coe_iff, EReal.coe_le_coe_iff]
  exact ⟨hLow, hHigh⟩

theorem centroid_of_eq (hs : s.Centred a b c d t r) (h : t = r) :
    s.corners.b ≤ s.centroid ∧ s.centroid ≤ s.corners.c := by
  rw [centroid_eq, if_pos (hs.beq_iff.mpr h), hs.denotes_b.le_iff hs.denotes_top,
    hs.denotes_top.le_iff hs.denotes_c, EReal.coe_le_coe_iff, EReal.coe_le_coe_iff]
  exact ⟨hs.b_le_top, hs.top_le_c⟩

theorem supports_of_eq (hs : s.Centred a b c d t r) (h : t = r) : s.Supports s.centroid := by
  rw [centroid_eq, if_pos (hs.beq_iff.mpr h), hs.supports_iff hs.denotes_top, EReal.coe_le_coe_iff,
    EReal.coe_le_coe_iff]
  exact ⟨hs.a_le_b.trans hs.b_le_top, hs.top_le_c.trans hs.c_le_d⟩

theorem triple_ne_top (hs : s.Centred a b c d t r) (h : (3.0 * s.width).isFinite = true) :
    rounded (3 * nearest (d - a)) ≠ ⊤ :=
  ((denotes_three.mul hs.denotes_width).isFinite_iff.mp h).2

theorem abs_mul_skew_le (hs : s.Centred a b c d t r) (h : s.Wide) :
    |t * nearest (t - r)| ≤ 2 ^ (49 : ℤ) := by
  have hReach : Denotes 281474976710656.0 ((2 ^ (48 : ℤ) : ℝ) : EReal) := by
    refine ⟨rfl, ?_⟩
    change extended (.finite .positive (2 ^ 52) (-4) (by decide)) = _
    rw [extended_positive]
    norm_num
  have hPoint := hs.denotes_top.mul hs.denotes_skew
  have hLow := (hReach.neg.le_iff hPoint).mp h.low
  have hHigh := (hPoint.le_iff hReach).mp h.high
  have hNext : rounded ((2 : ℝ) ^ (49 : ℤ)) = ((2 ^ (49 : ℤ) : ℝ) : EReal) :=
    rounded_zpow (by norm_num) (by norm_num)
  have hLess : ((2 ^ (48 : ℤ) : ℝ) : EReal) < ((2 ^ (49 : ℤ) : ℝ) : EReal) :=
    EReal.coe_lt_coe_iff.mpr (by norm_num)
  refine abs_le.mpr ⟨?_, ?_⟩
  · refine (lt_of_rounded_lt ?_).le
    rw [rounded_neg, hNext]
    refine lt_of_lt_of_le ?_ hLow
    rw [EReal.coe_neg]
    exact EReal.neg_lt_neg_iff.mpr hLess
  · refine (lt_of_rounded_lt ?_).le
    rw [hNext]
    exact hHigh.trans_lt hLess

theorem one_le_apart (hs : s.Centred a b c d t r) (h : s.Wide) :
    1 ≤ nearest (t - r) ∨ 1 ≤ nearest (r - t) := by
  refine h.apart.imp (fun hAfter => ?_) fun hBefore => ?_
  · exact EReal.coe_le_coe_iff.mp ((denotes_one.le_iff hs.denotes_skew).mp hAfter)
  · have hLe := EReal.coe_le_coe_iff.mp ((hs.denotes_skew.le_iff denotes_one.neg).mp hBefore)
    rw [nearest_sub_symm] at hLe
    linarith

theorem supports_of_wide (hs : s.Centred a b c d t r) (h : s.Wide) : s.Supports s.centroid := by
  have hSize := hs.abs_mul_skew_le h
  have hApart := hs.one_le_apart h
  have hNe : t ≠ r := by
    rintro rfl
    rw [sub_self, nearest_zero, or_self] at hApart
    linarith
  obtain ⟨n, z, hCentroid, hLow, hHigh, hError⟩ := hs.denotes_centroid hNe
    (hs.triple_ne_top h.finite) (hSize.trans (zpow_le_zpow_right₀ one_le_two (by norm_num)))
  have hSmall : |n - (t * nearest (t - r) - z)| ≤ 1 / 4 := by
    norm_num at hSize hError
    linarith
  exact hs.supports_of_between hCentroid (between_of_apart hApart hLow hHigh hSmall)

/-- A little more than a fourth; a width that is rounded to a fourth is less. -/
theorem representable_aboveFourth : Representable (33 / 128) :=
  ⟨33, -7, by norm_num, by norm_num, by norm_num⟩

theorem apart_of_narrow (hs : s.Centred a b c d t r) (h : d - a < 33 / 128) :
    |t - r| ≤ 33 / 128 ∧ |nearest (t - r)| ≤ 33 / 128 := by
  have hApart := hs.apart_le.trans h.le
  have hSkew := abs_nearest_le hApart
  rw [nearest_eq_self representable_aboveFourth] at hSkew
  exact ⟨hApart, hSkew⟩

/-- Different middles that are near each other are near the origin. -/
theorem abs_top_le (hs : s.Centred a b c d t r) (hNe : t ≠ r) : |t| ≤ 2 ^ (53 : ℤ) * |t - r| :=
  hs.denotes_top.parts.representable.1.abs_le_mul_abs_sub
    hs.denotes_bottom.parts.representable.1 hNe

theorem abs_corner_le (hs : s.Centred a b c d t r) (h : d - a < 33 / 128) (hNe : t ≠ r) :
    |a| ≤ 2 ^ (52 : ℤ) - 1 ∧ |-d| ≤ 2 ^ (52 : ℤ) - 1 := by
  have hTop := hs.abs_top_le hNe
  have hApart := (hs.apart_of_narrow h).1
  norm_num at hTop
  have hSize : |t| ≤ 2 ^ (51 : ℤ) * (33 / 32) := by
    norm_num
    linarith
  rw [abs_le] at hSize
  rw [abs_neg, abs_le, abs_le]
  norm_num at hSize ⊢
  refine ⟨⟨?_, ?_⟩, ?_, ?_⟩ <;>
    linarith [hs.a_le_b, hs.b_le_top, hs.top_le_c, hs.c_le_d]

theorem narrow_error (hs : s.Centred a b c d t r) (h : d - a < 33 / 128) (hNe : t ≠ r) :
    |t * nearest (t - r)| ≤ 2 ^ (52 : ℤ) ∧
      3 * |t * nearest (t - r)| * 2 ^ (-53 : ℤ) + 2 ^ (-40 : ℤ) ≤ 13 / 64 := by
  obtain ⟨hApart, hSkew⟩ := hs.apart_of_narrow h
  have hProduct : |t * nearest (t - r)| ≤ 2 ^ (53 : ℤ) * (33 / 128) * (33 / 128) := by
    calc
      |t * nearest (t - r)| = |t| * |nearest (t - r)| := abs_mul _ _
      _ ≤ 2 ^ (53 : ℤ) * |t - r| * |nearest (t - r)| :=
        mul_le_mul_of_nonneg_right (hs.abs_top_le hNe) (abs_nonneg _)
      _ ≤ 2 ^ (53 : ℤ) * (33 / 128) * (33 / 128) := by gcongr
  norm_num at hProduct ⊢
  constructor <;> linarith

theorem not_supports_of_narrow (hs : s.Centred a b c d t r) (hWidth : nearest (d - a) ≤ 1 / 4)
    (hNe : t ≠ r) : ¬ s.Supports s.centroid := by
  have h : d - a < 33 / 128 := representable_aboveFourth.lt_of_nearest_lt (by linarith)
  have hTriple : rounded (3 * nearest (d - a)) ≠ ⊤ :=
    ((rounded_le_one (by linarith)).trans_lt (EReal.coe_lt_top 1)).ne
  obtain ⟨hNear, hSmall⟩ := hs.narrow_error h hNe
  obtain ⟨ha, hd⟩ := hs.abs_corner_le h hNe
  obtain ⟨n, z, hCentroid, hLow, -, hError⟩ := hs.denotes_centroid hNe hTriple hNear
  have hFar := far_of_near hs.denotes_top.granular hs.denotes_bottom.granular hNe
    (hs.apart_of_narrow h).2 hLow (hError.trans hSmall)
  rw [hs.supports_iff hCentroid, not_and_or, not_le, not_le]
  refine hFar.imp (fun hLeft => ?_) fun hRight => ?_
  · exact rounded_lt_of_le_sub_half ha (by linarith [hs.top_le_c, hs.c_le_d])
  · have hOutside := rounded_lt_of_le_sub_half hd (x := -(n / nearest (t - r)))
      (by linarith [hs.a_le_b, hs.b_le_top])
    rwa [rounded_neg, EReal.coe_neg, EReal.neg_lt_neg_iff] at hOutside

end Centred

/-- The height is infinity divided by infinity, if the plateau is not as wide. -/
theorem Located.isNaN_height (hs : s.Located a b c d) (hWidth : Denotes s.width ⊤)
    (hTop : rounded (c - b) ≠ ⊤) : s.height.isNaN = true := by
  have hNonneg : 0 ≤ c - b := sub_nonneg.mpr hs.b_le_c
  have hPlateau := hs.denotes_c.sub hs.denotes_b
  rw [rounded_eq_nearest_of_nonneg hNonneg hTop] at hPlateau
  have hNotBot : rounded (2 * nearest (c - b)) ≠ ⊥ := by
    have hDouble := zero_le_rounded (mul_nonneg zero_le_two (nearest_nonneg hNonneg))
    exact (EReal.bot_lt_zero.trans_le hDouble).ne'
  have hUpper := (denotes_two.mul hPlateau).add_top hNotBot hWidth
  have hLower := hPlateau.add_top (EReal.coe_ne_bot _) hWidth
  exact isNaN_div_of_isNaN (isNaN_top_div_top hUpper hLower) 3.0

theorem Located.not_supports_of_top (hs : s.Located a b c d) (h : rounded (d - a) = ⊤) :
    ¬ s.Supports s.centroid := by
  have hWidth : Denotes s.width ⊤ := h ▸ hs.denotes_d.sub hs.denotes_a
  have hBottom : Denotes s.bottomMiddle ⊤ :=
    hs.denotes_a.add_top (EReal.coe_ne_bot a) (hWidth.top_div denotes_two two_pos)
  by_cases hTop : rounded (c - b) = ⊤
  · -- both middles are infinite, and so is the centroid
    have hMiddle := hs.denotes_middle_top hTop
    rw [centroid_eq, if_pos ((hMiddle.beq_iff hBottom).mpr rfl)]
    intro hSupports
    exact absurd ((hMiddle.le_iff hs.denotes_d).mp hSupports.2) (not_le.mpr (EReal.coe_lt_top d))
  · obtain ⟨hMiddle, -, -⟩ := hs.denotes_middle hTop
    have hDiffer : ¬ (s.middleOfMaximum == s.bottomMiddle) = true := fun hEq =>
      EReal.coe_ne_top _ ((hMiddle.beq_iff hBottom).mp hEq)
    have hNaN : s.centroid.isNaN = true := by
      rw [centroid_eq, if_neg hDiffer]
      exact isNaN_div_of_isNaN (isNaN_sub_of_isNaN (hs.isNaN_height hWidth hTop) _) _
    intro hSupports
    rw [(isNaN_eq_false_of_le hSupports.1).2] at hNaN
    cases hNaN

end

/-- Whether the centroid lies in the support depends on the width. It does if both middles agree, and
then lies on the plateau, or if they are at least one apart. It does not if the width is no double, and
for a narrow shape only if both middles agree. Nothing is said of the shapes in between, which are wider
than a fourth and have different middles less than one apart. -/
theorem supports_centroid {s : Shape} (h : s.flaw? = none) :
    (s.width.isFinite = false → ¬ s.Supports s.centroid) ∧
    (s.width.isFinite = true →
      ((s.middleOfMaximum == s.bottomMiddle) = true →
        s.corners.b ≤ s.centroid ∧ s.centroid ≤ s.corners.c) ∧
      (s.Wide → s.Supports s.centroid)) ∧
    (s.width ≤ 0.25 →
      (s.Supports s.centroid ↔ (s.middleOfMaximum == s.bottomMiddle) = true)) := by
  obtain ⟨a, b, c, d, hs⟩ := exists_located h
  refine ⟨fun hInfinite => ?_, fun hFinite => ?_, fun hNarrow => ?_⟩
  · apply hs.not_supports_of_top
    by_contra hTop
    rw [hs.isFinite_width.mpr hTop] at hInfinite
    cases hInfinite
  · obtain ⟨t, r, hMiddles⟩ := hs.exists_centred (hs.isFinite_width.mp hFinite)
    exact ⟨fun hAgree => hMiddles.centroid_of_eq (hMiddles.beq_iff.mp hAgree),
      hMiddles.supports_of_wide⟩
  · have hWidth := ((hs.denotes_d.sub hs.denotes_a).le_iff denotes_fourth).mp hNarrow
    have hFinite : rounded (d - a) ≠ ⊤ := (hWidth.trans_lt (EReal.coe_lt_top _)).ne
    rw [rounded_eq_nearest_of_nonneg (sub_nonneg.mpr hs.a_le_d) hFinite,
      EReal.coe_le_coe_iff] at hWidth
    obtain ⟨t, r, hMiddles⟩ := hs.exists_centred hFinite
    rw [hMiddles.beq_iff]
    constructor
    · intro hSupports
      by_contra hNe
      exact hMiddles.not_supports_of_narrow hWidth hNe hSupports
    · exact hMiddles.supports_of_eq

/-- On a shape that leans to the right and is wide enough the centroid lies in the support; on the same
shape a hundred times narrower it does not. -/
theorem supports_centroid_leaning :
    (Shape.trapezoid 0.0 10.0 20.0 20.0).Supports (Shape.trapezoid 0.0 10.0 20.0 20.0).centroid ∧
      ¬ (Shape.trapezoid 0.0 0.1 0.2 0.2).Supports (Shape.trapezoid 0.0 0.1 0.2 0.2).centroid := by
  have hWide : (Shape.trapezoid 0.0 10.0 20.0 20.0).Wide :=
    ⟨by decide +kernel, by decide +kernel, by decide +kernel, by decide +kernel⟩
  constructor
  · exact ((supports_centroid (by decide +kernel)).2.1 (by decide +kernel)).2 hWide
  · rw [(supports_centroid (by decide +kernel)).2.2 (by decide +kernel)]
    decide +kernel

/-- A triangle whose steep side is on the right: its centre of gravity is at 0.25. -/
theorem not_supports_centroid_steep :
    (Shape.triangle 0.0 0.375 0.375).flaw? = none ∧
      ¬ (Shape.triangle 0.0 0.375 0.375).Supports (Shape.triangle 0.0 0.375 0.375).centroid := by
  decide +kernel

end FuzzyControl.Shape
