import FuzzyControl.Proofs.Ramps

/-! # The middle of the plateau

The middle of the maximum is computed in three steps that are rounded: the length of the plateau, half of
it, and the sum with the beginning. Between half of the rounded length and the length lies a power of two,
so the sum does not pass the end of the plateau, and rounding does not move it past a double. So the middle
is a point of the plateau however short that is, and its grade is exactly one. Only a length that is no
double spoils this: then the middle is infinite, and lies beyond the shape.
-/
namespace FuzzyControl.Shape

open Binary64

set_option autoImplicit false

section

variable {s : Shape} {a b c d : ℝ}

theorem Located.isFinite_plateau (hs : s.Located a b c d) :
    (s.corners.c - s.corners.b).isFinite = true ↔ rounded (c - b) ≠ ⊤ :=
  isFinite_iff_of_nonneg (hs.denotes_c.sub hs.denotes_b) (sub_nonneg.mpr hs.b_le_c)

theorem Located.denotes_middle (hs : s.Located a b c d) (h : rounded (c - b) ≠ ⊤) :
    Denotes s.middleOfMaximum (halfway b c : ℝ) ∧ b ≤ halfway b c ∧ halfway b c ≤ c :=
  hs.denotes_b.halfway hs.denotes_c hs.b_le_c h

theorem Located.core_middle (hs : s.Located a b c d) (h : rounded (c - b) ≠ ⊤) :
    s.core.1 ≤ s.middleOfMaximum ∧ s.middleOfMaximum ≤ s.core.2 := by
  obtain ⟨hMiddle, hAbove, hBelow⟩ := hs.denotes_middle h
  constructor
  · exact (hs.denotes_b.le_iff hMiddle).mpr (EReal.coe_le_coe_iff.mpr hAbove)
  · exact (hMiddle.le_iff hs.denotes_c).mpr (EReal.coe_le_coe_iff.mpr hBelow)

/-- The plateau of a triangle has no other point than the peak. -/
theorem middleOfMaximum_triangle {p q r : Float} (h : q.isFinite = true) :
    ((triangle p q r).middleOfMaximum == q) = true := by
  obtain ⟨v, hv⟩ := exists_denotes_of_isFinite h
  obtain ⟨hMiddle, hAbove, hBelow⟩ := hv.halfway hv le_rfl (rounded_sub_self_ne_top v)
  exact (hMiddle.beq_iff hv).mpr (congrArg _ (le_antisymm hBelow hAbove))

/-- A plateau that is too long for a double has an infinite middle. -/
theorem Located.denotes_middle_top (hs : s.Located a b c d) (h : rounded (c - b) = ⊤) :
    Denotes s.middleOfMaximum ⊤ := by
  have hPlateau : Denotes (s.corners.c - s.corners.b) ⊤ := h ▸ hs.denotes_c.sub hs.denotes_b
  exact hs.denotes_b.add_top (EReal.coe_ne_bot b) (hPlateau.top_div denotes_two two_pos)

theorem Located.support_lt_middle (hs : s.Located a b c d) (h : rounded (c - b) = ⊤) :
    s.support.2 < s.middleOfMaximum :=
  (hs.denotes_d.lt_iff (hs.denotes_middle_top h)).mpr (EReal.coe_lt_top d)

end

/-- If the length of the plateau is a double, then the middle lies on the plateau, its grade is exactly
one, and it differs from the exact middle by last digits of the farther end at most. If the length is
none, then the middle lies beyond the shape, and its grade is zero. -/
theorem core_middleOfMaximum {s : Shape} (h : s.flaw? = none) :
    ((s.corners.c - s.corners.b).isFinite = true →
      (s.core.1 ≤ s.middleOfMaximum ∧ s.middleOfMaximum ≤ s.core.2) ∧
      s.grade s.middleOfMaximum = 1.0 ∧
      ∃ b c t : ℝ, Denotes s.core.1 b ∧ Denotes s.core.2 c ∧ Denotes s.middleOfMaximum t ∧
        |t - (b + c) / 2| ≤ max |b| |c| * 2 ^ (-52 : ℤ) + halfGrain) ∧
    ((s.corners.c - s.corners.b).isFinite = false →
      s.support.2 < s.middleOfMaximum ∧ s.grade s.middleOfMaximum = 0.0) := by
  obtain ⟨a, b, c, d, hs⟩ := exists_located h
  constructor
  · intro hLength
    have hFinite := hs.isFinite_plateau.mp hLength
    obtain ⟨hLow, hHigh⟩ := hs.core_middle hFinite
    refine ⟨⟨hLow, hHigh⟩, grade_plateau hLow hHigh, b, c, halfway b c, ?_⟩
    exact ⟨hs.denotes_b, hs.denotes_c, (hs.denotes_middle hFinite).1,
      abs_halfway_sub_le hs.denotes_b.granular hs.denotes_c.granular hs.b_le_c⟩
  · intro hLength
    have hTop : rounded (c - b) = ⊤ := by
      by_contra hFinite
      rw [hs.isFinite_plateau.mpr hFinite] at hLength
      cases hLength
    have hBeyond := hs.support_lt_middle hTop
    exact ⟨hBeyond, hs.grade_outside (.inr hBeyond)⟩

/-- Plateaus of a single step, from zero and from one on, and one that is too long for a double. -/
theorem core_middleOfMaximum_step :
    (Shape.trapezoid 0.0 0.0 5e-324 1.0).grade
        (Shape.trapezoid 0.0 0.0 5e-324 1.0).middleOfMaximum = 1.0 ∧
      (Shape.trapezoid 0.0 1.0 1.0000000000000002 2.0).grade
        (Shape.trapezoid 0.0 1.0 1.0000000000000002 2.0).middleOfMaximum = 1.0 ∧
      (Shape.trapezoid (-1e308) (-1e308) 1e308 1e308).grade
        (Shape.trapezoid (-1e308) (-1e308) 1e308 1e308).middleOfMaximum = 0.0 := by
  refine ⟨?_, ?_, ?_⟩
  · exact ((core_middleOfMaximum (by decide +kernel)).1 (by decide +kernel)).2.1
  · exact ((core_middleOfMaximum (by decide +kernel)).1 (by decide +kernel)).2.1
  · exact ((core_middleOfMaximum (by decide +kernel)).2 (by decide +kernel)).2

end FuzzyControl.Shape
