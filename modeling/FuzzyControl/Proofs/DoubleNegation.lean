import FuzzyControl.Proofs.Truth
import FuzzyControl.Proofs.Binary64.Accuracy

/-! # Negations of negations

The complement of a degree is rounded to a multiple of the last place that doubles between a half and one
have, and the complement of such a multiple is exact. So two negations give a degree back if it is such a
multiple, as every degree from a half on is, and else they move it by half of that place at most. The
first negation makes it one, so that two further ones change nothing: of a chain of three or more
negations two may be left out, anywhere in a condition.
-/
namespace FuzzyControl

open Binary64

set_option autoImplicit false

namespace Binary64

section

variable {r x : ℝ}

theorem fractional_one : Fractional 1 := ⟨2 ^ 53, by norm_num⟩

theorem Fractional.one_sub (h : Fractional r) : Fractional (1 - r) := by
  obtain ⟨k, rfl⟩ := h
  obtain ⟨l, hl⟩ := fractional_one
  refine ⟨l - k, ?_⟩
  rw [hl]
  push_cast
  ring

theorem Fractional.representable (h : Fractional r) (hNonneg : 0 ≤ r) (hOne : r ≤ 1) :
    Representable r := by
  obtain rfl | hLt := hOne.eq_or_lt
  · exact denotes_one.parts.representable.1
  · obtain ⟨k, rfl⟩ := h
    have hPow : (0 : ℝ) < 2 ^ (-53 : ℤ) := by positivity
    have hLow : (0 : ℝ) ≤ k := nonneg_of_mul_nonneg_left hNonneg hPow
    have hHigh : (k : ℝ) < 2 ^ 53 := by
      norm_num at hLt
      linarith
    refine ⟨k, -53, ?_, by norm_num, rfl⟩
    rw [abs_of_nonneg (by exact_mod_cast hLow)]
    exact_mod_cast hHigh

theorem fractional_of_place_le {n e : ℤ} (h : -53 ≤ e) : Fractional (n * 2 ^ e) := by
  obtain ⟨d, rfl⟩ := Int.le.dest h
  refine ⟨n * 2 ^ d, ?_⟩
  rw [zpow_add₀ two_ne_zero, zpow_natCast]
  push_cast
  ring

theorem Representable.fractional (h : Representable r) (hHalf : 1 / 2 ≤ r) : Fractional r := by
  obtain ⟨n, e, hn, -, rfl⟩ := h
  apply fractional_of_place_le
  by_contra hSmall
  have hDigits : (n : ℝ) < 2 ^ (53 : ℤ) := by exact_mod_cast (abs_lt.mp hn).2
  have hPlace : (2 : ℝ) ^ e ≤ 2 ^ (-54 : ℤ) := zpow_le_zpow_right₀ one_le_two (by omega)
  have hLt : (n : ℝ) * 2 ^ e < 1 / 2 := by
    calc
      (n : ℝ) * 2 ^ e < 2 ^ (53 : ℤ) * 2 ^ e := mul_lt_mul_of_pos_right hDigits (by positivity)
      _ ≤ 2 ^ (53 : ℤ) * 2 ^ (-54 : ℤ) := mul_le_mul_of_nonneg_left hPlace (by positivity)
      _ = 1 / 2 := by norm_num
  exact absurd hHalf (not_le.mpr hLt)

/-- From a half on, rounding ends at a multiple. -/
theorem fractional_nearest (h : 1 / 2 ≤ x) : Fractional (nearest x) := by
  have hPos : 0 < x := by linarith
  have hLog : -1 ≤ Int.log 2 x := by
    rw [← Int.zpow_le_iff_le_log (by norm_num) hPos]
    norm_num
    linarith
  apply fractional_of_place_le
  rw [lastPlace_of_pos hPos]
  omega

theorem abs_nearest_sub_le_of_lt_one (hPos : 0 < x) (h : x < 1) :
    |nearest x - x| ≤ 2 ^ (-54 : ℤ) := by
  have hLog : Int.log 2 x < 0 := by
    rw [← Int.lt_zpow_iff_log_lt (by norm_num) hPos]
    simpa using h
  have hPlace : lastPlace x ≤ -53 := by
    rw [lastPlace_of_pos hPos]
    omega
  calc
    |nearest x - x| ≤ 2 ^ lastPlace x / 2 := abs_nearest_sub_le_place x
    _ ≤ 2 ^ (-53 : ℤ) / 2 := by
      exact div_le_div_of_nonneg_right (zpow_le_zpow_right₀ one_le_two hPlace) zero_le_two
    _ = 2 ^ (-54 : ℤ) := by norm_num

end

end Binary64

namespace Degree

section

variable {r : ℝ}

theorem complement_mem_unit (hNonneg : 0 ≤ r) (hOne : r ≤ 1) :
    0 ≤ complement r ∧ complement r ≤ 1 := by
  constructor
  · exact nearest_nonneg (by linarith)
  · calc
      complement r ≤ complement 0 := antitone_complement hNonneg
      _ = 1 := by rw [complement, sub_zero, nearest_eq_self denotes_one.parts.representable.1]

theorem complement_of_fractional (h : Fractional r) (hNonneg : 0 ≤ r) (hOne : r ≤ 1) :
    complement r = 1 - r :=
  nearest_eq_self (h.one_sub.representable (by linarith) (by linarith))

theorem fractional_complement (h : Representable r) (hNonneg : 0 ≤ r) (hOne : r ≤ 1) :
    Fractional (complement r) := by
  by_cases hHalf : 1 / 2 ≤ r
  · have hMultiple := h.fractional hHalf
    rw [complement_of_fractional hMultiple hNonneg hOne]
    exact hMultiple.one_sub
  · exact fractional_nearest (by linarith)

variable (h : Representable r) (hNonneg : 0 ≤ r) (hOne : r ≤ 1)

include h hNonneg hOne

theorem complement_complement : complement (complement r) = 1 - complement r := by
  obtain ⟨hLow, hHigh⟩ := complement_mem_unit hNonneg hOne
  exact complement_of_fractional (fractional_complement h hNonneg hOne) hLow hHigh

theorem complement_complement_eq_iff : complement (complement r) = r ↔ Fractional r := by
  constructor
  · intro hEq
    rw [← hEq, complement_complement h hNonneg hOne]
    exact (fractional_complement h hNonneg hOne).one_sub
  · intro hMultiple
    rw [complement_complement h hNonneg hOne, complement_of_fractional hMultiple hNonneg hOne,
      sub_sub_cancel]

theorem complement_complement_complement :
    complement (complement (complement r)) = complement r := by
  obtain ⟨hLow, hHigh⟩ := complement_mem_unit hNonneg hOne
  have hMultiple := fractional_complement h hNonneg hOne
  exact (complement_complement_eq_iff (hMultiple.representable hLow hHigh) hLow hHigh).mpr hMultiple

theorem abs_complement_complement_sub_le :
    |complement (complement r) - r| ≤ 2 ^ (-54 : ℤ) := by
  obtain rfl | hPos := hNonneg.eq_or_lt
  · have hZero : Fractional 0 := ⟨0, by simp⟩
    rw [(complement_complement_eq_iff h hNonneg hOne).mpr hZero, sub_self, abs_zero]
    positivity
  obtain rfl | hLt := hOne.eq_or_lt
  · rw [(complement_complement_eq_iff h hNonneg hOne).mpr fractional_one, sub_self, abs_zero]
    positivity
  · calc
      |complement (complement r) - r| = |nearest (1 - r) - (1 - r)| := by
        rw [complement_complement h hNonneg hOne, complement, abs_sub_comm]
        ring_nf
      _ ≤ 2 ^ (-54 : ℤ) := abs_nearest_sub_le_of_lt_one (by linarith) (by linarith)

end

section

variable {a b : Degree}

theorem Proper.representable_truth (ha : a.Proper) : Representable a.truth :=
  ha.denotes_truth.parts.representable.1

theorem not_value_ne_negZero (a : Degree) : a.not.value ≠ -0.0 := by
  intro h
  have hOne : (1.0 : Float) = -0.0 := eq_negZero_of_sub h
  exact absurd (congrArg Binary64.value hOne) (by simp)

/-- Complements are equal as doubles if they are equal as numbers: none of them is negative zero. -/
theorem Proper.not_eq_of_truth_eq (ha : a.Proper) (hb : b.Proper)
    (h : a.not.truth = b.not.truth) : a.not = b.not := by
  have hValue : Binary64.value a.not.value = Binary64.value b.not.value := by
    rw [ha.not.denotes_truth.value, hb.not.denotes_truth.value, h]
  obtain hSame | ⟨-, hNeg⟩ | ⟨hNeg, -⟩ := eq_or_of_value_eq ha.not.defined hb.not.defined hValue
  · exact congrArg Degree.mk hSame
  · exact absurd hNeg (not_value_ne_negZero b)
  · exact absurd hNeg (not_value_ne_negZero a)

theorem Proper.truth_not_not (ha : a.Proper) : a.not.not.truth = complement (complement a.truth) := by
  rw [ha.not.truth_not, ha.truth_not]

theorem Proper.not_not_not (ha : a.Proper) : a.not.not.not = a.not := by
  obtain ⟨hNonneg, hOne⟩ := ha.truth_mem_unit
  apply ha.not.not.not_eq_of_truth_eq ha
  rw [ha.not.not.truth_not, ha.truth_not_not, ha.truth_not,
    complement_complement_complement ha.representable_truth hNonneg hOne]

theorem Proper.beq_not_not_iff (ha : a.Proper) : (a.not.not == a) = true ↔ Fractional a.truth := by
  obtain ⟨hNonneg, hOne⟩ := ha.truth_mem_unit
  rw [ha.not.not.beq_iff_truth ha, ha.truth_not_not,
    complement_complement_eq_iff ha.representable_truth hNonneg hOne]

theorem Proper.abs_truth_not_not_sub_le (ha : a.Proper) :
    |a.not.not.truth - a.truth| ≤ 2 ^ (-54 : ℤ) := by
  obtain ⟨hNonneg, hOne⟩ := ha.truth_mem_unit
  rw [ha.truth_not_not]
  exact abs_complement_complement_sub_le ha.representable_truth hNonneg hOne

theorem Proper.not_not_of_half_le (ha : a.Proper) (h : 0.5 ≤ a.value) : a.not.not = a := by
  have hHalf : 1 / 2 ≤ a.truth := by
    exact EReal.coe_le_coe_iff.mp ((denotes_half.le_iff ha.denotes_truth).mp h)
  have hEq := ha.beq_not_not_iff.mpr (ha.representable_truth.fractional hHalf)
  rw [ha.not.not.beq_iff_truth ha] at hEq
  have hPositive : (a.truth : EReal) ≠ 0 := by
    have : a.truth ≠ 0 := by linarith
    exact_mod_cast this
  have hNotNot := ha.not.not.denotes_truth
  rw [hEq] at hNotNot
  exact congrArg Degree.mk (hNotNot.eq_of_ne_zero ha.denotes_truth hPositive)

end

end Degree

namespace Antecedent

/-- Two negations are left out of a chain of three or more. -/
inductive Shortens : Antecedent → Antecedent → Prop where
  | chain {n : ℕ} (h : 3 ≤ n) (e : Antecedent) : Shortens (not^[n] e) (not^[n - 2] e)

section

variable {vars : Table Variable} {readings : Readings} {e e' : Antecedent}

theorem evaluate_not_not_not (e : Antecedent) :
    evaluate vars readings (.not (.not (.not e))) = evaluate vars readings (.not e) := by
  simp only [evaluate]
  cases h : e.evaluate vars readings with
  | error fault => rfl
  | ok a => exact congrArg Except.ok (proper_evaluate h).not_not_not

theorem Shortens.evaluate_eq (h : Shortens e e') :
    e'.evaluate vars readings = e.evaluate vars readings := by
  cases h with
  | @chain n h e =>
    obtain ⟨m, rfl⟩ := Nat.exists_eq_add_of_le' h
    rw [Nat.add_sub_assoc (by decide), Function.iterate_succ_apply', Function.iterate_succ_apply',
      Function.iterate_succ_apply', Function.iterate_succ_apply', evaluate_not_not_not]

theorem Within.evaluate_eq {R : Antecedent → Antecedent → Prop}
    (hR : ∀ e e', R e e' → e'.evaluate vars readings = e.evaluate vars readings)
    (h : Within R e e') : e'.evaluate vars readings = e.evaluate vars readings := by
  induction h with
  | here h => exact hR _ _ h
  | andLeft r _ ih | andRight l _ ih | orLeft r _ ih | orRight l _ ih | not _ ih =>
    rw [evaluate, evaluate, ih]

end

end Antecedent

/-- For every degree of the unit interval two negations give it back if it is at least a half, and move
it by `2 ^ (-54)` at most; they give it back exactly if it is a multiple of `2 ^ (-53)`; and three
negations are one. So chains of three or more negations, anywhere in a condition, may be shortened by
two, as often as one likes. -/
theorem Degree.not_not_of_unit :
    (∀ a : Degree, 0.0 ≤ a.value → a.value ≤ 1.0 →
      (0.5 ≤ a.value → a.not.not = a) ∧
      |a.not.not.truth - a.truth| ≤ 2 ^ (-54 : ℤ) ∧
      ((a.not.not == a) = true ↔ Fractional a.truth) ∧
      a.not.not.not = a.not) ∧
    ∀ (vars : Table Variable) (readings : Readings) (e e' : Antecedent),
      Relation.EqvGen (Antecedent.Within Antecedent.Shortens) e e' →
        e'.evaluate vars readings = e.evaluate vars readings := by
  constructor
  · intro a hNonneg hOne
    have ha : a.Proper := proper_iff.mpr ⟨(isNaN_eq_false_of_le hOne).1, hNonneg, hOne⟩
    exact ⟨ha.not_not_of_half_le, ha.abs_truth_not_not_sub_le, ha.beq_not_not_iff, ha.not_not_not⟩
  · intro vars readings e e' h
    exact Antecedent.eq_of_eqvGen (Antecedent.evaluate vars readings)
      (fun _ _ => Antecedent.Within.evaluate_eq fun _ _ => Antecedent.Shortens.evaluate_eq) h

/-- A tenth is no such multiple, nine tenths as a double are one. -/
theorem Degree.not_not_of_unit_tenth :
    ((⟨0.1⟩ : Degree).not.not == ⟨0.1⟩) = false ∧ ¬ Fractional (⟨0.1⟩ : Degree).truth ∧
    (⟨0.1⟩ : Degree).not.not.not = (⟨0.1⟩ : Degree).not ∧
    (⟨0.9⟩ : Degree).not.not = ⟨0.9⟩ ∧
    ∀ vars readings (cold warm : Antecedent),
      Antecedent.evaluate vars readings (.and (.not (.not cold)) warm) =
        Antecedent.evaluate vars readings (.and (.not (.not (.not (.not cold)))) warm) := by
  obtain ⟨hDegrees, hChains⟩ := not_not_of_unit
  obtain ⟨-, -, hTenth, hThree⟩ := hDegrees ⟨0.1⟩ (by decide +kernel) (by decide +kernel)
  obtain ⟨hNine, -⟩ := hDegrees ⟨0.9⟩ (by decide +kernel) (by decide +kernel)
  have hMoved : ((⟨0.1⟩ : Degree).not.not == ⟨0.1⟩) = false := by decide +kernel
  refine ⟨hMoved, ?_, hThree, hNine (by decide +kernel), ?_⟩
  · rw [← hTenth, hMoved]
    exact Bool.false_ne_true
  · intro vars readings cold warm
    exact hChains vars readings _ _ (.rel _ _ (.andLeft _ (.here (.chain (n := 4) (by decide) cold))))

end FuzzyControl
