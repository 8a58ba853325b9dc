import FuzzyControl.Proofs.Centroid
import FuzzyControl.Proofs.Recording

/-! # Divisors

Dividing a double by zero, or by something undefined, does not stop a program, it only spoils what is
computed from there on. So the functions that divide are given here a second time, with a division that
has no result for such a divisor (`divide?`), and are shown to have the results they have with the usual
one: a ramp is entered only between distinct corners, the centroid leaves through the test of its middles
before anything vanishes, and a mean is taken only of strengths with a positive sum. The differences that
are divisors do not vanish in rounding, since distinct numbers have a difference, and where one of them is
infinite, the other is not the same infinity.
-/
namespace FuzzyControl

open Binary64

set_option autoImplicit false

/-- A number other than zero, by which one can divide. -/
def Divides (y : Float) : Prop := y.isNaN = false ∧ (y == 0.0) = false

instance (y : Float) : Decidable (Divides y) :=
  inferInstanceAs (Decidable (y.isNaN = false ∧ (y == 0.0) = false))

def divide? (x y : Float) : Option Float :=
  if Divides y then some (x / y) else none

theorem divide?_of_divides {y : Float} (h : Divides y) (x : Float) : divide? x y = some (x / y) :=
  if_pos h

section

variable {x y : Float} {v w : EReal}

theorem divides_of_denotes (h : Denotes y v) (hv : v ≠ 0) : Divides y := by
  refine ⟨h.isNaN, ?_⟩
  rw [← Bool.not_eq_true, h.beq_iff denotes_zero]
  exact hv

theorem divides_sub (hx : Denotes x v) (hy : Denotes y w) (h : v ≠ w) : Divides (x - y) := by
  obtain ⟨u, hDifference, hNe⟩ := hx.sub_ne_zero hy h
  exact divides_of_denotes hDifference hNe

end

theorem divides_of_pos {y : Float} (h : 0.0 < y) : Divides y := by
  have hy := denotes_value (isNaN_eq_false_of_lt h).2
  exact divides_of_denotes hy ((denotes_zero.lt_iff hy).mp h).ne'

theorem divides_two : Divides 2.0 :=
  divides_of_denotes denotes_two (EReal.coe_ne_zero.mpr two_ne_zero)

theorem divides_three : Divides 3.0 :=
  divides_of_denotes denotes_three (EReal.coe_ne_zero.mpr three_ne_zero)

namespace Shape

/-- The grade, with divisions that may fail. -/
def grade? (s : Shape) (x : Float) : Option Float :=
  let k := s.corners
  if k.a ≤ x ∧ x < k.b then divide? (x - k.a) (k.b - k.a)
  else if k.b ≤ x ∧ x ≤ k.c then some 1.0
  else if k.c < x ∧ x ≤ k.d then divide? (k.d - x) (k.d - k.c)
  else some 0.0

section

variable {s : Shape} {x : Float}

theorem divides_rise (h : s.corners.a ≤ x ∧ x < s.corners.b) :
    Divides (s.corners.b - s.corners.a) := by
  have ha := denotes_value (isNaN_eq_false_of_le h.1).1
  have hb := denotes_value (isNaN_eq_false_of_lt h.2).2
  exact divides_sub hb ha ((value_le_of_le h.1).trans_lt (value_lt_of_lt h.2)).ne'

theorem divides_fall (h : s.corners.c < x ∧ x ≤ s.corners.d) :
    Divides (s.corners.d - s.corners.c) := by
  have hc := denotes_value (isNaN_eq_false_of_lt h.1).1
  have hd := denotes_value (isNaN_eq_false_of_le h.2).2
  exact divides_sub hd hc ((value_lt_of_lt h.1).trans_le (value_le_of_le h.2)).ne'

end

theorem grade?_eq (s : Shape) (x : Float) : s.grade? x = some (s.grade x) := by
  rw [grade?, grade_eq]
  split_ifs with hRise hPlateau hFall
  · exact divide?_of_divides (divides_rise hRise) _
  · rfl
  · exact divide?_of_divides (divides_fall hFall) _
  · rfl

def centroid? (s : Shape) : Option Float := do
  let k := s.corners
  let top := k.c - k.b
  let bottom := k.d - k.a
  let topMiddle := k.b + (← divide? top 2.0)
  let bottomMiddle := k.a + (← divide? bottom 2.0)
  if topMiddle == bottomMiddle then return topMiddle
  let height ← divide? (← divide? ((2.0 * top) + bottom) (top + bottom)) 3.0
  let slope := topMiddle - bottomMiddle
  let offset := 1.0 - topMiddle * slope
  divide? (height - offset) slope

/-- What the weights of the two sides are divided by. -/
def sides (s : Shape) : Float := (s.corners.c - s.corners.b) + s.width

section

variable {s : Shape} {a b c d : ℝ}

theorem Located.divides_skew (hs : s.Located a b c d)
    (hDiffer : (s.middleOfMaximum == s.bottomMiddle) = false) : Divides s.skew := by
  obtain ⟨t, ht⟩ := hs.denotes_b.exists_middle hs.denotes_c hs.b_le_c
  obtain ⟨r, hr⟩ := hs.denotes_a.exists_middle hs.denotes_d hs.a_le_d
  have hTop : Denotes s.middleOfMaximum t := ht
  have hBottom : Denotes s.bottomMiddle r := hr
  rw [← Bool.not_eq_true, hTop.beq_iff hBottom] at hDiffer
  exact divides_sub hTop hBottom hDiffer

/-- A support of one point has its middles at this point. -/
theorem Located.a_lt_d_of_differ (hs : s.Located a b c d)
    (hDiffer : (s.middleOfMaximum == s.bottomMiddle) = false) : a < d := by
  by_contra hLe
  obtain rfl : a = d := le_antisymm hs.a_le_d (not_lt.mp hLe)
  obtain ⟨t, r, hMiddles⟩ := hs.exists_centred (rounded_sub_self_ne_top a)
  rw [← Bool.not_eq_true, hMiddles.beq_iff] at hDiffer
  exact hLe (hMiddles.a_lt_d hDiffer)

theorem Located.divides_sides (hs : s.Located a b c d)
    (hDiffer : (s.middleOfMaximum == s.bottomMiddle) = false) : Divides s.sides := by
  have hPlateau := hs.denotes_c.sub hs.denotes_b
  have hWidth := hs.denotes_d.sub hs.denotes_a
  have hNe : rounded (d - a) ≠ 0 :=
    (hs.denotes_d.granular.sub hs.denotes_a.granular).rounded_ne_zero
      (sub_ne_zero_of_ne (hs.a_lt_d_of_differ hDiffer).ne')
  have hNonneg : 0 ≤ rounded (d - a) := zero_le_rounded (sub_nonneg.mpr hs.a_le_d)
  obtain ⟨u, hSides, -, hLe⟩ :=
    hPlateau.le_add (zero_le_rounded (sub_nonneg.mpr hs.b_le_c)) hWidth hNonneg
  exact divides_of_denotes hSides ((hNonneg.lt_of_ne' hNe).trans_le hLe).ne'

end

theorem divides_of_middles {s : Shape} (h : s.flaw? = none)
    (hDiffer : (s.middleOfMaximum == s.bottomMiddle) = false) :
    Divides s.sides ∧ Divides s.skew := by
  obtain ⟨a, b, c, d, hs⟩ := exists_located h
  exact ⟨hs.divides_sides hDiffer, hs.divides_skew hDiffer⟩

theorem centroid?_eq {s : Shape} (h : s.flaw? = none) : s.centroid? = some s.centroid := by
  simp only [centroid?, divide?_of_divides divides_two, Option.bind_eq_bind, Option.bind_some]
  rw [centroid_eq]
  by_cases hAgree : (s.middleOfMaximum == s.bottomMiddle) = true
  · rw [if_pos hAgree]
    exact if_pos hAgree
  · obtain ⟨hSides, hSkew⟩ := divides_of_middles h (Bool.not_eq_true _ ▸ hAgree)
    have hWeight : ∀ x, divide? x (s.corners.c - s.corners.b + (s.corners.d - s.corners.a)) =
        some (x / s.sides) := divide?_of_divides hSides
    rw [if_neg hAgree]
    refine (if_neg hAgree).trans ?_
    rw [hWeight, Option.bind_some, divide?_of_divides divides_three, Option.bind_some]
    exact divide?_of_divides hSkew _

end Shape

namespace OutputSet

def defuzzify? (s : OutputSet) (strategy : Strategy) : Option (Except Fault Float) :=
  if s.total ≤ 0.0 then some (.error (.noApplicableRule s.output))
  else (divide? (s.moment strategy) s.total).map .ok

theorem total_recorded_pos {output : String} {ks : List Contribution}
    (hks : ∀ k ∈ ks, k.strength.value.isNaN = false) (h : ¬ (recorded output ks).total ≤ 0.0) :
    0.0 < (recorded output ks).total := by
  have hDefined : ∀ d ∈ (recorded output ks).contributions, d.strength.Defined :=
    fun _ hd => defined_of_mem_recorded hks hd
  have hPositive : ∀ d ∈ (recorded output ks).contributions, d.strength.isPositive = true :=
    fun _ hd => isPositive_of_mem_recorded hks hd
  exact (total_pos_iff hDefined hPositive).mpr (mt (total_le_zero_iff hDefined hPositive).mpr h)

theorem defuzzify?_recorded {output : String} {ks : List Contribution}
    (hks : ∀ k ∈ ks, k.strength.value.isNaN = false) (strategy : Strategy) :
    (recorded output ks).defuzzify? strategy = some ((recorded output ks).defuzzify strategy) := by
  rw [defuzzify?, defuzzify]
  split_ifs with hTotal
  · rfl
  · rw [divide?_of_divides (divides_of_pos (total_recorded_pos hks hTotal)), Option.map_some]

end OutputSet

/-- No division has a divisor that is zero or undefined: not on the ramps of any shape, whatever its
numbers are; not in the centroid of a shape without a flaw, once its middles differ; and not in the
defuzzification of a set filled with defined strengths, where the total is positive once it is divided by.
So all three have the same results if a division by such a divisor has none. -/
theorem divisions_defined :
    (∀ (s : Shape) (x : Float),
      (s.corners.a ≤ x ∧ x < s.corners.b → Divides (s.corners.b - s.corners.a)) ∧
      (s.corners.c < x ∧ x ≤ s.corners.d → Divides (s.corners.d - s.corners.c)) ∧
      s.grade? x = some (s.grade x)) ∧
    (∀ s : Shape, s.flaw? = none →
      ((s.middleOfMaximum == s.bottomMiddle) = false → Divides s.sides ∧ Divides s.skew) ∧
      s.centroid? = some s.centroid) ∧
    (∀ (output : String) (ks : List Contribution),
      (∀ k ∈ ks, k.strength.value.isNaN = false) →
      (¬ (OutputSet.recorded output ks).total ≤ 0.0 → 0.0 < (OutputSet.recorded output ks).total) ∧
      ∀ strategy, (OutputSet.recorded output ks).defuzzify? strategy =
        some ((OutputSet.recorded output ks).defuzzify strategy)) := by
  refine ⟨fun s x => ⟨Shape.divides_rise, Shape.divides_fall, s.grade?_eq x⟩, ?_, ?_⟩
  · intro s hShape
    exact ⟨Shape.divides_of_middles hShape, Shape.centroid?_eq hShape⟩
  · intro output ks hks
    exact ⟨OutputSet.total_recorded_pos hks, OutputSet.defuzzify?_recorded hks⟩

/-- A ramp as narrow as two doubles can make it, a trapezoid too wide for a double, and strengths that are
no degrees. -/
theorem divisions_defined_extreme :
    Divides (5e-324 - 0.0) ∧
      Divides (Shape.trapezoid (-1e308) 0.0 1.0 1e308).sides ∧
      Divides (Shape.trapezoid (-1e308) 0.0 1.0 1e308).skew ∧
      0.0 < (OutputSet.recorded "Power" OutputSet.rawRecords).total := by
  obtain ⟨hRamps, hCentroid, hMean⟩ := divisions_defined
  have hks : ∀ k ∈ OutputSet.rawRecords, k.strength.value.isNaN = false := by
    simp only [OutputSet.rawRecords, List.forall_mem_cons]
    decide +kernel
  obtain ⟨hSides, hSkew⟩ :=
    (hCentroid (.trapezoid (-1e308) 0.0 1.0 1e308) (by decide +kernel)).1 (by decide +kernel)
  refine ⟨?_, hSides, hSkew, ?_⟩
  · exact (hRamps (.triangle 0.0 5e-324 5e-324) 0.0).1 (by decide +kernel)
  · exact (hMean "Power" _ hks).1 (by decide +kernel)

end FuzzyControl
