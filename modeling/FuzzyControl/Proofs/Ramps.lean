import FuzzyControl.Shape
import FuzzyControl.Proofs.Binary64.Accuracy

/-! # Ramps

On a ramp the grade of a point is the quotient of two rounded differences, the distance of the point
from the foot and the width of the ramp. Rounding keeps the order, so this quotient lies in the unit
interval and follows the point: up to the end of the plateau the grade rises, and from its beginning on
it falls. All this fails where a distance is too great for a double, and only there: infinity divided by
infinity is undefined.
-/
namespace FuzzyControl.Shape

open Binary64

set_option autoImplicit false

/-- The corners are the real numbers `a ≤ b ≤ c ≤ d`. -/
structure Located (s : Shape) (a b c d : ℝ) : Prop where
  denotes_a : Denotes s.corners.a a
  denotes_b : Denotes s.corners.b b
  denotes_c : Denotes s.corners.c c
  denotes_d : Denotes s.corners.d d
  a_le_b : a ≤ b
  b_le_c : b ≤ c
  c_le_d : c ≤ d

theorem exists_located {s : Shape} (h : s.flaw? = none) : ∃ a b c d, s.Located a b c d := by
  obtain ⟨hFinite, hab, hbc, hcd⟩ := s.flaw?_eq_none_iff.mp h
  obtain ⟨a, ha⟩ := exists_denotes_of_isFinite (hFinite s.corners.a (by simp [Corners.toList]))
  obtain ⟨b, hb⟩ := exists_denotes_of_isFinite (hFinite s.corners.b (by simp [Corners.toList]))
  obtain ⟨c, hc⟩ := exists_denotes_of_isFinite (hFinite s.corners.c (by simp [Corners.toList]))
  obtain ⟨d, hd⟩ := exists_denotes_of_isFinite (hFinite s.corners.d (by simp [Corners.toList]))
  refine ⟨a, b, c, d, ha, hb, hc, hd, ?_, ?_, ?_⟩
  · exact EReal.coe_le_coe_iff.mp ((ha.le_iff hb).mp hab)
  · exact EReal.coe_le_coe_iff.mp ((hb.le_iff hc).mp hbc)
  · exact EReal.coe_le_coe_iff.mp ((hc.le_iff hd).mp hcd)

theorem zero_le_rounded {x : ℝ} (h : 0 ≤ x) : 0 ≤ rounded x := by
  calc
    (0 : EReal) = rounded 0 := denotes_zero.rounded_eq.symm
    _ ≤ rounded x := rounded_mono h

theorem rounded_le_one {x : ℝ} (h : x ≤ 1) : rounded x ≤ 1 := by
  calc
    rounded x ≤ rounded 1 := rounded_mono h
    _ = 1 := denotes_one.rounded_eq

theorem isFinite_iff_of_nonneg {p : Float} {u : ℝ} (hp : Denotes p (rounded u)) (hu : 0 ≤ u) :
    p.isFinite = true ↔ rounded u ≠ ⊤ := by
  rw [hp.isFinite_iff]
  refine and_iff_right fun hBot => ?_
  have hNonneg := zero_le_rounded hu
  rw [hBot] at hNonneg
  exact absurd hNonneg (not_le.mpr EReal.bot_lt_zero)

section

variable {p q : Float} {u v : ℝ}

theorem denotes_share (hp : Denotes p (rounded u)) (hq : Denotes q (rounded v)) (hu : 0 ≤ u)
    (huv : u ≤ v) (hv : 0 < v) (hGranular : Granular v) (hFinite : rounded v ≠ ⊤) :
    Denotes (p / q) (rounded (nearest u / nearest v)) := by
  have hPart : rounded u ≠ ⊤ := fun hTop => hFinite (top_le_iff.mp (hTop ▸ rounded_mono huv))
  rw [rounded_eq_nearest_of_nonneg hu hPart] at hp
  rw [rounded_eq_nearest_of_nonneg hv.le hFinite] at hq
  exact hp.div hq (hGranular.nearest_pos hv).ne'

theorem share_mem_unit (hu : 0 ≤ u) (huv : u ≤ v) :
    0 ≤ rounded (nearest u / nearest v) ∧ rounded (nearest u / nearest v) ≤ 1 := by
  have hPart := nearest_nonneg hu
  have hWhole := nearest_nonneg (hu.trans huv)
  constructor
  · exact zero_le_rounded (div_nonneg hPart hWhole)
  · exact rounded_le_one (div_le_one_of_le₀ (nearest_mono huv) hWhole)

theorem isNaN_share (hp : Denotes p (rounded u)) (hq : Denotes q (rounded v)) (huv : u ≤ v)
    (hInfinite : rounded u = ⊤) : (p / q).isNaN = true := by
  have hWhole : rounded v = ⊤ := top_le_iff.mp (hInfinite ▸ rounded_mono huv)
  rw [hInfinite] at hp
  rw [hWhole] at hq
  exact isNaN_top_div_top hp hq

/-- The share of a part in a whole is a number of the unit interval, even if the whole is too great for
a double, as long as the part is none. -/
theorem unit_of_share (hp : Denotes p (rounded u)) (hq : Denotes q (rounded v)) (hu : 0 ≤ u)
    (huv : u ≤ v) (hv : 0 < v) (hGranular : Granular v) (hFinite : rounded u ≠ ⊤) :
    ∃ w, Denotes (p / q) w ∧ 0 ≤ w ∧ w ≤ 1 := by
  by_cases hWhole : rounded v = ⊤
  · rw [rounded_eq_nearest_of_nonneg hu hFinite] at hp
    rw [hWhole] at hq
    exact ⟨0, hp.div_top hq, le_rfl, zero_le_one⟩
  · exact ⟨_, denotes_share hp hq hu huv hv hGranular hWhole, share_mem_unit hu huv⟩

end

theorem exists_real_of_between {t : EReal} {low high : ℝ} (h₁ : low ≤ t) (h₂ : t ≤ high) :
    ∃ r : ℝ, t = r ∧ low ≤ r ∧ r ≤ high := by
  induction t with
  | bot => exact absurd h₁ (not_le.mpr (EReal.bot_lt_coe low))
  | top => exact absurd h₂ (not_le.mpr (EReal.coe_lt_top high))
  | coe r => exact ⟨r, rfl, EReal.coe_le_coe_iff.mp h₁, EReal.coe_le_coe_iff.mp h₂⟩

/-- The height of `t` on the way up from `foot` to `top`. -/
noncomputable def climb (foot top : ℝ) (t : EReal) : EReal :=
  if t < foot then 0
  else if t < top then rounded (nearest (t.toReal - foot) / nearest (top - foot))
  else 1

section

variable {foot top : ℝ}

theorem climb_mem_unit (t : EReal) : 0 ≤ climb foot top t ∧ climb foot top t ≤ 1 := by
  unfold climb
  split_ifs with hLow hHigh
  · exact ⟨le_rfl, zero_le_one⟩
  · obtain ⟨r, rfl, hFoot, hTop⟩ := exists_real_of_between (not_lt.mp hLow) hHigh.le
    rw [EReal.toReal_coe]
    exact share_mem_unit (sub_nonneg.mpr hFoot) (sub_le_sub_right hTop foot)
  · exact ⟨zero_le_one, le_rfl⟩

theorem climb_mono : Monotone (climb foot top) := by
  intro t t' h
  by_cases hLow : t < foot
  · rw [climb, if_pos hLow]
    exact (climb_mem_unit t').1
  by_cases hHigh : t' < top
  · obtain ⟨r, rfl, hFoot, hr⟩ := exists_real_of_between (not_lt.mp hLow) (h.trans hHigh.le)
    obtain ⟨r', rfl, -, hTop⟩ := exists_real_of_between h hHigh.le
    have hLe : r ≤ r' := EReal.coe_le_coe_iff.mp h
    have hWidth : 0 ≤ nearest (top - foot) := nearest_nonneg (by linarith)
    rw [climb, if_neg hLow, if_pos (h.trans_lt hHigh), climb,
      if_neg (not_lt.mpr ((not_lt.mp hLow).trans h)), if_pos hHigh, EReal.toReal_coe,
      EReal.toReal_coe]
    exact rounded_mono (div_le_div_of_nonneg_right (nearest_mono (by linarith)) hWidth)
  · have hAbove : ¬ t' < foot := not_lt.mpr ((not_lt.mp hLow).trans h)
    have hOne : climb foot top t' = 1 := by rw [climb, if_neg hAbove, if_neg hHigh]
    rw [hOne]
    exact (climb_mem_unit t).2

end

section

variable {s : Shape} {a b c d : ℝ} {x y : Float} {t : EReal}

theorem grade_eq (s : Shape) (x : Float) :
    s.grade x =
      if s.corners.a ≤ x ∧ x < s.corners.b then (x - s.corners.a) / (s.corners.b - s.corners.a)
      else if s.corners.b ≤ x ∧ x ≤ s.corners.c then 1.0
      else if s.corners.c < x ∧ x ≤ s.corners.d then (s.corners.d - x) / (s.corners.d - s.corners.c)
      else 0.0 :=
  rfl

theorem Located.grade_outside (hs : s.Located a b c d)
    (h : x < s.corners.a ∨ s.corners.d < x) : s.grade x = 0.0 := by
  have hx : x.isNaN = false := h.elim (fun h => (isNaN_eq_false_of_lt h).1) fun h =>
    (isNaN_eq_false_of_lt h).2
  have hValue := denotes_value hx
  have hOutside : value x < a ∨ (d : EReal) < value x :=
    h.imp (hValue.lt_iff hs.denotes_a).mp (hs.denotes_d.lt_iff hValue).mp
  have hab : (a : EReal) ≤ b := EReal.coe_le_coe_iff.mpr hs.a_le_b
  have hbc : (b : EReal) ≤ c := EReal.coe_le_coe_iff.mpr hs.b_le_c
  have hcd : (c : EReal) ≤ d := EReal.coe_le_coe_iff.mpr hs.c_le_d
  simp only [grade_eq, hs.denotes_a.le_iff hValue, hValue.lt_iff hs.denotes_b,
    hs.denotes_b.le_iff hValue, hValue.le_iff hs.denotes_c, hs.denotes_c.lt_iff hValue,
    hValue.le_iff hs.denotes_d]
  obtain hLow | hHigh := hOutside
  · rw [if_neg fun h => absurd hLow (not_lt.mpr h.1),
      if_neg fun h => absurd hLow (not_lt.mpr (hab.trans h.1)),
      if_neg fun h => absurd hLow (not_lt.mpr ((hab.trans hbc).trans h.1.le))]
  · rw [if_neg fun h => absurd hHigh (not_lt.mpr (h.2.le.trans (hbc.trans hcd))),
      if_neg fun h => absurd hHigh (not_lt.mpr (h.2.trans hcd)),
      if_neg fun h => absurd hHigh (not_lt.mpr h.2)]

theorem grade_plateau (h₁ : s.corners.b ≤ x) (h₂ : x ≤ s.corners.c) : s.grade x = 1.0 := by
  have hValue := denotes_value (isNaN_eq_false_of_le h₁).2
  have hb := denotes_value (isNaN_eq_false_of_le h₁).1
  have hNotBelow : ¬ x < s.corners.b := by
    rw [hValue.lt_iff hb, not_lt]
    exact (hb.le_iff hValue).mp h₁
  rw [grade_eq, if_neg fun h => hNotBelow h.2, if_pos ⟨h₁, h₂⟩]

theorem Located.grade_rise (hs : s.Located a b c d) {r : ℝ} (hx : Denotes x r) (h₁ : a ≤ r)
    (h₂ : r < b) : s.grade x = (x - s.corners.a) / (s.corners.b - s.corners.a) := by
  rw [grade_eq, if_pos]
  exact ⟨(hs.denotes_a.le_iff hx).mpr (EReal.coe_le_coe_iff.mpr h₁),
    (hx.lt_iff hs.denotes_b).mpr (EReal.coe_lt_coe_iff.mpr h₂)⟩

theorem Located.grade_fall (hs : s.Located a b c d) {r : ℝ} (hx : Denotes x r) (h₁ : c < r)
    (h₂ : r ≤ d) : s.grade x = (s.corners.d - x) / (s.corners.d - s.corners.c) := by
  have hNotLow : ¬ x < s.corners.b := by
    rw [hx.lt_iff hs.denotes_b, EReal.coe_lt_coe_iff, not_lt]
    exact hs.b_le_c.trans h₁.le
  have hNotMiddle : ¬ x ≤ s.corners.c := by
    rw [hx.le_iff hs.denotes_c, EReal.coe_le_coe_iff, not_le]
    exact h₁
  rw [grade_eq, if_neg fun h => hNotLow h.2, if_neg fun h => hNotMiddle h.2, if_pos]
  exact ⟨(hs.denotes_c.lt_iff hx).mpr (EReal.coe_lt_coe_iff.mpr h₁),
    (hx.le_iff hs.denotes_d).mpr (EReal.coe_le_coe_iff.mpr h₂)⟩

/-- Up to the end of the plateau the grade is the height on the first ramp. -/
theorem Located.denotes_grade_of_le (hs : s.Located a b c d) (hRise : rounded (b - a) ≠ ⊤)
    (hx : Denotes x t) (ht : t ≤ c) : Denotes (s.grade x) (climb a b t) := by
  unfold climb
  split_ifs with hLow hHigh
  · rw [hs.grade_outside (.inl ((hx.lt_iff hs.denotes_a).mpr hLow))]
    exact denotes_zero
  · obtain ⟨r, rfl, hFoot, hTop⟩ := exists_real_of_between (not_lt.mp hLow) hHigh.le
    have hBelow : r < b := EReal.coe_lt_coe_iff.mp hHigh
    rw [hs.grade_rise hx hFoot hBelow, EReal.toReal_coe]
    exact denotes_share (hx.sub hs.denotes_a) (hs.denotes_b.sub hs.denotes_a)
      (sub_nonneg.mpr hFoot) (sub_le_sub_right hTop a) (sub_pos.mpr (hFoot.trans_lt hBelow))
      (hs.denotes_b.granular.sub hs.denotes_a.granular) hRise
  · have hAbove : s.corners.b ≤ x := (hs.denotes_b.le_iff hx).mpr (not_lt.mp hHigh)
    rw [grade_plateau hAbove ((hx.le_iff hs.denotes_c).mpr ht)]
    exact denotes_one

/-- From the beginning of the plateau on it is the height on the second ramp, which is climbed from the
other side. -/
theorem Located.denotes_grade_of_ge (hs : s.Located a b c d) (hFall : rounded (d - c) ≠ ⊤)
    (hx : Denotes x t) (ht : b ≤ t) : Denotes (s.grade x) (climb (-d) (-c) (-t)) := by
  simp only [climb, EReal.coe_neg, EReal.neg_lt_neg_iff]
  split_ifs with hHigh hLow
  · rw [hs.grade_outside (.inr ((hs.denotes_d.lt_iff hx).mpr hHigh))]
    exact denotes_zero
  · obtain ⟨r, rfl, hTop, hFoot⟩ := exists_real_of_between hLow.le (not_lt.mp hHigh)
    have hAbove : c < r := EReal.coe_lt_coe_iff.mp hLow
    have hPart : -r - -d = d - r := by ring
    have hWhole : -c - -d = d - c := by ring
    rw [hs.grade_fall hx hAbove hFoot, ← EReal.coe_neg, EReal.toReal_coe, hPart, hWhole]
    exact denotes_share (hs.denotes_d.sub hx) (hs.denotes_d.sub hs.denotes_c)
      (sub_nonneg.mpr hFoot) (sub_le_sub_left hTop d) (sub_pos.mpr (hAbove.trans_le hFoot))
      (hs.denotes_d.granular.sub hs.denotes_c.granular) hFall
  · have hBelow : x ≤ s.corners.c := (hx.le_iff hs.denotes_c).mpr (not_lt.mp hLow)
    rw [grade_plateau ((hs.denotes_b.le_iff hx).mpr ht) hBelow]
    exact denotes_one

theorem Located.grade_mono (hs : s.Located a b c d) (hRise : rounded (b - a) ≠ ⊤) (h : x ≤ y)
    (hy : y ≤ s.corners.c) : s.grade x ≤ s.grade y := by
  obtain ⟨hxNaN, hyNaN⟩ := isNaN_eq_false_of_le h
  have hLe := (Binary64.le_iff hxNaN hyNaN).mp h
  have hEnd := ((denotes_value hyNaN).le_iff hs.denotes_c).mp hy
  have hGrade := hs.denotes_grade_of_le hRise (denotes_value hxNaN) (hLe.trans hEnd)
  have hGrade' := hs.denotes_grade_of_le hRise (denotes_value hyNaN) hEnd
  exact (hGrade.le_iff hGrade').mpr (climb_mono hLe)

theorem Located.grade_anti (hs : s.Located a b c d) (hFall : rounded (d - c) ≠ ⊤)
    (hx : s.corners.b ≤ x) (h : x ≤ y) : s.grade y ≤ s.grade x := by
  obtain ⟨hxNaN, hyNaN⟩ := isNaN_eq_false_of_le h
  have hLe := (Binary64.le_iff hxNaN hyNaN).mp h
  have hBegin := (hs.denotes_b.le_iff (denotes_value hxNaN)).mp hx
  have hGrade := hs.denotes_grade_of_ge hFall (denotes_value hxNaN) hBegin
  have hGrade' := hs.denotes_grade_of_ge hFall (denotes_value hyNaN) (hBegin.trans hLe)
  exact (hGrade'.le_iff hGrade).mpr (climb_mono (EReal.neg_le_neg_iff.mpr hLe))

theorem grade_mono (h : s.flaw? = none) (hRise : (s.corners.b - s.corners.a).isFinite = true)
    (hLe : x ≤ y) (hy : y ≤ s.corners.c) : s.grade x ≤ s.grade y := by
  obtain ⟨a, b, c, d, hs⟩ := exists_located h
  exact hs.grade_mono ((isFinite_iff_of_nonneg (hs.denotes_b.sub hs.denotes_a)
    (sub_nonneg.mpr hs.a_le_b)).mp hRise) hLe hy

theorem grade_anti (h : s.flaw? = none) (hFall : (s.corners.d - s.corners.c).isFinite = true)
    (hx : s.corners.b ≤ x) (hLe : x ≤ y) : s.grade y ≤ s.grade x := by
  obtain ⟨a, b, c, d, hs⟩ := exists_located h
  exact hs.grade_anti ((isFinite_iff_of_nonneg (hs.denotes_d.sub hs.denotes_c)
    (sub_nonneg.mpr hs.c_le_d)).mp hFall) hx hLe

/-- The distance of `x` from the foot of the ramp on which it lies is a double. -/
def WithinReach (s : Shape) (x : Float) : Prop :=
  (s.corners.a ≤ x → x < s.corners.b → (x - s.corners.a).isFinite = true) ∧
    (s.corners.c < x → x ≤ s.corners.d → (s.corners.d - x).isFinite = true)

theorem Located.withinReach_rise (hs : s.Located a b c d) {r : ℝ} (hx : Denotes x r) (h₁ : a ≤ r)
    (h₂ : r < b) : s.WithinReach x ↔ rounded (r - a) ≠ ⊤ := by
  have hAfter : s.corners.a ≤ x := (hs.denotes_a.le_iff hx).mpr (EReal.coe_le_coe_iff.mpr h₁)
  have hBefore : x < s.corners.b := (hx.lt_iff hs.denotes_b).mpr (EReal.coe_lt_coe_iff.mpr h₂)
  have hNotLater : ¬ s.corners.c < x := by
    rw [hs.denotes_c.lt_iff hx, EReal.coe_lt_coe_iff, not_lt]
    exact h₂.le.trans hs.b_le_c
  rw [← isFinite_iff_of_nonneg (hx.sub hs.denotes_a) (sub_nonneg.mpr h₁)]
  exact ⟨fun h => h.1 hAfter hBefore, fun h => ⟨fun _ _ => h, fun h' => absurd h' hNotLater⟩⟩

theorem Located.withinReach_fall (hs : s.Located a b c d) {r : ℝ} (hx : Denotes x r) (h₁ : c < r)
    (h₂ : r ≤ d) : s.WithinReach x ↔ rounded (d - r) ≠ ⊤ := by
  have hAfter : s.corners.c < x := (hs.denotes_c.lt_iff hx).mpr (EReal.coe_lt_coe_iff.mpr h₁)
  have hBefore : x ≤ s.corners.d := (hx.le_iff hs.denotes_d).mpr (EReal.coe_le_coe_iff.mpr h₂)
  have hNotEarlier : ¬ x < s.corners.b := by
    rw [hx.lt_iff hs.denotes_b, EReal.coe_lt_coe_iff, not_lt]
    exact hs.b_le_c.trans h₁.le
  rw [← isFinite_iff_of_nonneg (hs.denotes_d.sub hx) (sub_nonneg.mpr h₂)]
  exact ⟨fun h => h.2 hAfter hBefore, fun h => ⟨fun _ h' => absurd h' hNotEarlier, fun _ _ => h⟩⟩

/-- On both ramps alike: a part of a width is too great for a double, or its share is in the unit
interval. -/
theorem unit_or_undefined_of_share {p q : Float} {u v : ℝ} (hp : Denotes p (rounded u))
    (hq : Denotes q (rounded v)) (hu : 0 ≤ u) (huv : u ≤ v) (hv : 0 < v) (hGranular : Granular v) :
    (rounded u ≠ ⊤ → ∃ w, Denotes (p / q) w ∧ 0 ≤ w ∧ w ≤ 1) ∧
      (¬ rounded u ≠ ⊤ → (p / q).isNaN = true) := by
  constructor
  · exact unit_of_share hp hq hu huv hv hGranular
  · intro hInfinite
    exact isNaN_share hp hq huv (not_not.mp hInfinite)

theorem Located.unit_or_undefined (hs : s.Located a b c d) (x : Float) :
    (s.WithinReach x → ∃ w, Denotes (s.grade x) w ∧ 0 ≤ w ∧ w ≤ 1) ∧
      (¬ s.WithinReach x → (s.grade x).isNaN = true) := by
  by_cases hRise : s.corners.a ≤ x ∧ x < s.corners.b
  · have hValue := denotes_value (isNaN_eq_false_of_lt hRise.2).1
    have hBefore := (hValue.lt_iff hs.denotes_b).mp hRise.2
    obtain ⟨r, hr, hFoot, hTop⟩ :=
      exists_real_of_between ((hs.denotes_a.le_iff hValue).mp hRise.1) hBefore.le
    rw [hr] at hValue hBefore
    have hLt : r < b := EReal.coe_lt_coe_iff.mp hBefore
    rw [hs.withinReach_rise hValue hFoot hLt, hs.grade_rise hValue hFoot hLt]
    exact unit_or_undefined_of_share (hValue.sub hs.denotes_a) (hs.denotes_b.sub hs.denotes_a)
      (sub_nonneg.mpr hFoot) (sub_le_sub_right hTop a) (sub_pos.mpr (hFoot.trans_lt hLt))
      (hs.denotes_b.granular.sub hs.denotes_a.granular)
  by_cases hFall : s.corners.c < x ∧ x ≤ s.corners.d
  · have hValue := denotes_value (isNaN_eq_false_of_lt hFall.1).2
    have hAfter := (hs.denotes_c.lt_iff hValue).mp hFall.1
    obtain ⟨r, hr, hTop, hFoot⟩ :=
      exists_real_of_between hAfter.le ((hValue.le_iff hs.denotes_d).mp hFall.2)
    rw [hr] at hValue hAfter
    have hLt : c < r := EReal.coe_lt_coe_iff.mp hAfter
    rw [hs.withinReach_fall hValue hLt hFoot, hs.grade_fall hValue hLt hFoot]
    exact unit_or_undefined_of_share (hs.denotes_d.sub hValue) (hs.denotes_d.sub hs.denotes_c)
      (sub_nonneg.mpr hFoot) (sub_le_sub_left hTop d) (sub_pos.mpr (hLt.trans_le hFoot))
      (hs.denotes_d.granular.sub hs.denotes_c.granular)
  · have hReach : s.WithinReach x :=
      ⟨fun h h' => absurd ⟨h, h'⟩ hRise, fun h h' => absurd ⟨h, h'⟩ hFall⟩
    refine ⟨fun _ => ?_, fun h => absurd hReach h⟩
    rw [grade_eq, if_neg hRise, if_neg hFall]
    split_ifs
    · exact ⟨1, denotes_one, zero_le_one, le_rfl⟩
    · exact ⟨0, denotes_zero, le_rfl, zero_le_one⟩

end

/-- The grade of a point is a number of the unit interval exactly if the distance of the point from the
foot of its ramp is a double, and undefined otherwise. -/
theorem unit_of_grade_iff {s : Shape} (h : s.flaw? = none) (x : Float) :
    ((s.grade x).isNaN = false ∧ 0.0 ≤ s.grade x ∧ s.grade x ≤ 1.0 ↔ s.WithinReach x) ∧
      ((s.grade x).isNaN = true ↔ ¬ s.WithinReach x) := by
  obtain ⟨a, b, c, d, hs⟩ := exists_located h
  obtain ⟨hUnit, hUndefined⟩ := hs.unit_or_undefined x
  have hDefined : s.WithinReach x → (s.grade x).isNaN = false := fun hReach =>
    let ⟨_, hDenotes, _, _⟩ := hUnit hReach
    hDenotes.isNaN
  have hReach : (s.grade x).isNaN = false → s.WithinReach x := by
    intro hNaN
    by_contra hFar
    rw [hUndefined hFar] at hNaN
    cases hNaN
  constructor
  · refine ⟨fun hGrade => hReach hGrade.1, fun hNear => ?_⟩
    obtain ⟨w, hDenotes, hNonneg, hOne⟩ := hUnit hNear
    exact ⟨hDenotes.isNaN, (denotes_zero.le_iff hDenotes).mpr hNonneg,
      (hDenotes.le_iff denotes_one).mpr hOne⟩
  · refine ⟨fun hNaN hNear => ?_, hUndefined⟩
    rw [hDefined hNear] at hNaN
    cases hNaN

/-- A triangle whose ramp is wider than the greatest double. -/
def wideTriangle : Shape := .triangle (-1.2e308) 1.2e308 1.2e308

/-- At the foot of a ramp that is too wide the grade is zero, three quarters up it is undefined. -/
theorem unit_of_grade_wideTriangle :
    (wideTriangle.grade (-1.2e308)).isNaN = false ∧ (wideTriangle.grade 6e307).isNaN = true := by
  have hNear : wideTriangle.WithinReach (-1.2e308) :=
    ⟨fun _ _ => by decide +kernel, fun h _ => absurd h (by decide +kernel)⟩
  have hFar : ¬ wideTriangle.WithinReach 6e307 := fun h =>
    absurd (h.1 (by decide +kernel) (by decide +kernel)) (by decide +kernel)
  exact ⟨((unit_of_grade_iff (by decide +kernel) _).1.mpr hNear).1,
    (unit_of_grade_iff (by decide +kernel) _).2.mpr hFar⟩

theorem not_unit_wideTriangle :
    wideTriangle.flaw? = none ∧
      ¬ ((wideTriangle.grade 6e307).isNaN = false ∧ 0.0 ≤ wideTriangle.grade 6e307 ∧
        wideTriangle.grade 6e307 ≤ 1.0) := by
  decide +kernel

/-- If both ramps have a width that is a double, then the grade is zero outside of the support, one on
the plateau, rises up to the end of the plateau and falls from its beginning on. -/
theorem unimodal_of_grade {s : Shape} (h : s.flaw? = none)
    (hRise : (s.corners.b - s.corners.a).isFinite = true)
    (hFall : (s.corners.d - s.corners.c).isFinite = true) :
    (∀ x, x < s.corners.a ∨ s.corners.d < x → s.grade x = 0.0) ∧
    (∀ x, s.corners.b ≤ x → x ≤ s.corners.c → s.grade x = 1.0) ∧
    (∀ x y, x ≤ y → y ≤ s.corners.c → s.grade x ≤ s.grade y) ∧
    (∀ x y, s.corners.b ≤ x → x ≤ y → s.grade y ≤ s.grade x) := by
  refine ⟨?_, ?_, ?_, ?_⟩
  · obtain ⟨a, b, c, d, hs⟩ := exists_located h
    intro x hx
    exact hs.grade_outside hx
  · intro x hLow hHigh
    exact grade_plateau hLow hHigh
  · intro x y hLe hy
    exact grade_mono h hRise hLe hy
  · intro x y hx hLe
    exact grade_anti h hFall hx hLe

/-- A shoulder with one steep side: the grade falls in rounded steps from one to zero. -/
theorem unimodal_of_grade_shoulder :
    (Shape.trapezoid 0.1 0.1 0.3 0.7).grade 0.6 ≤ (Shape.trapezoid 0.1 0.1 0.3 0.7).grade 0.5 ∧
      (Shape.trapezoid 0.1 0.1 0.3 0.7).grade (-1.0 / 0.0) = 0.0 := by
  have hUnimodal := unimodal_of_grade (s := .trapezoid 0.1 0.1 0.3 0.7) (by decide +kernel)
    (by decide +kernel) (by decide +kernel)
  exact ⟨hUnimodal.2.2.2 0.5 0.6 (by decide +kernel) (by decide +kernel),
    hUnimodal.1 (-1.0 / 0.0) (by decide +kernel)⟩

end FuzzyControl.Shape
