import FuzzyControl.Proofs.Binary64.Arithmetic
import FuzzyControl.Proofs.FirstFault

/-! # Degrees lie in the unit interval

Clamping brings every double into the unit interval, and the three connectives do not leave it; so the
degree of a condition lies in it, whatever the shapes and the readings are. Seen as real numbers, "and"
is the minimum and "or" the maximum of two degrees, which is how folds of them are computed with.
-/
namespace FuzzyControl

open Binary64

set_option autoImplicit false

namespace Degree

noncomputable def measure (a : Degree) : EReal := Binary64.value a.value

def Defined (a : Degree) : Prop := a.value.isNaN = false

/-- A degree of the unit interval. -/
structure Proper (a : Degree) : Prop where
  defined : a.Defined
  nonneg : 0 ≤ a.measure
  le_one : a.measure ≤ 1

section

variable {a b : Degree}

@[simp] theorem measure_zero : zero.measure = 0 := value_zero

@[simp] theorem measure_one : one.measure = 1 := value_one

theorem proper_zero : zero.Proper := ⟨rfl, measure_zero.ge, measure_zero.le.trans zero_le_one⟩

theorem proper_one : one.Proper := ⟨rfl, zero_le_one.trans measure_one.ge, measure_one.le⟩

theorem Defined.lt_iff (ha : a.Defined) (hb : b.Defined) :
    a.value < b.value ↔ a.measure < b.measure :=
  Binary64.lt_iff ha hb

theorem Defined.le_iff (ha : a.Defined) (hb : b.Defined) :
    a.value ≤ b.value ↔ a.measure ≤ b.measure :=
  Binary64.le_iff ha hb

theorem Defined.beq_iff (ha : a.Defined) (hb : b.Defined) :
    (a == b) = true ↔ a.measure = b.measure :=
  Binary64.beq_iff ha hb

theorem Defined.isPositive_iff (ha : a.Defined) : a.isPositive = true ↔ 0 < a.measure := by
  rw [Degree.isPositive_iff, ← measure_zero]
  exact proper_zero.defined.lt_iff ha

theorem Proper.zero_le_value (ha : a.Proper) : 0.0 ≤ a.value :=
  (proper_zero.defined.le_iff ha.defined).mpr (measure_zero.trans_le ha.nonneg)

theorem Proper.value_le_one (ha : a.Proper) : a.value ≤ 1.0 :=
  (ha.defined.le_iff proper_one.defined).mpr (ha.le_one.trans_eq measure_one.symm)

theorem proper_iff : a.Proper ↔ a.value.isNaN = false ∧ 0.0 ≤ a.value ∧ a.value ≤ 1.0 := by
  constructor
  · intro ha
    exact ⟨ha.defined, ha.zero_le_value, ha.value_le_one⟩
  · rintro ⟨hDefined, hNonneg, hOne⟩
    constructor
    · exact hDefined
    · exact measure_zero.symm.trans_le ((proper_zero.defined.le_iff hDefined).mp hNonneg)
    · exact ((Defined.le_iff hDefined proper_one.defined).mp hOne).trans_eq measure_one

theorem Proper.isPositive_eq_false_iff (ha : a.Proper) : a.isPositive = false ↔ a.measure = 0 := by
  rw [← Bool.not_eq_true, ha.defined.isPositive_iff, not_lt]
  exact ⟨fun h => le_antisymm h ha.nonneg, fun h => h.le⟩

theorem Proper.denotes (ha : a.Proper) :
    ∃ r : ℝ, Denotes a.value r ∧ a.measure = r ∧ 0 ≤ r ∧ r ≤ 1 := by
  obtain ⟨hDefined, hNonneg, hOne⟩ := ha
  have hTop : a.measure ≠ ⊤ := by
    intro h
    rw [h] at hOne
    exact absurd hOne (not_le.mpr (EReal.coe_lt_top 1))
  have hBot : a.measure ≠ ⊥ := by
    intro h
    rw [h] at hNonneg
    exact absurd hNonneg (not_le.mpr EReal.bot_lt_zero)
  have hReal : a.measure = (a.measure.toReal : EReal) := (EReal.coe_toReal hTop hBot).symm
  refine ⟨a.measure.toReal, ⟨hDefined, hReal⟩, hReal, ?_, ?_⟩
  · rw [hReal] at hNonneg
    exact EReal.coe_nonneg.mp hNonneg
  · rw [hReal] at hOne
    exact EReal.coe_le_coe_iff.mp hOne

theorem proper_clamp (x : Float) : (clamp x).Proper := by
  by_cases hNaN : x.isNaN = true
  · rw [clamp_of_isNaN hNaN]
    exact proper_zero
  · rw [clamp, if_neg hNaN]
    have hx : x.isNaN = false := Bool.eq_false_iff.mpr hNaN
    have hLow : x < 0.0 ↔ Binary64.value x < 0 := by
      rw [← value_zero]
      exact Binary64.lt_iff hx rfl
    have hHigh : 1.0 < x ↔ 1 < Binary64.value x := by
      rw [← value_one]
      exact Binary64.lt_iff rfl hx
    split_ifs with hNegative hAbove
    · exact proper_zero
    · exact proper_one
    · exact ⟨hx, not_lt.mp (mt hLow.mpr hNegative), not_lt.mp (mt hHigh.mpr hAbove)⟩

theorem Proper.and (ha : a.Proper) (hb : b.Proper) : (a.and b).Proper := by
  obtain h | h := and_eq_or a b <;> rw [h]
  · exact ha
  · exact hb

theorem Proper.or (ha : a.Proper) (hb : b.Proper) : (a.or b).Proper := by
  obtain h | h := or_eq_or a b <;> rw [h]
  · exact ha
  · exact hb

theorem Defined.and (ha : a.Defined) (hb : b.Defined) : (a.and b).Defined := by
  obtain h | h := and_eq_or a b <;> rw [h]
  · exact ha
  · exact hb

theorem Defined.or (ha : a.Defined) (hb : b.Defined) : (a.or b).Defined := by
  obtain h | h := or_eq_or a b <;> rw [h]
  · exact ha
  · exact hb

theorem Defined.measure_and (ha : a.Defined) (hb : b.Defined) :
    (a.and b).measure = min a.measure b.measure := by
  unfold Degree.and
  split_ifs with h
  · exact (min_eq_right ((hb.lt_iff ha).mp h).le).symm
  · exact (min_eq_left (not_lt.mp (mt (hb.lt_iff ha).mpr h))).symm

theorem Defined.measure_or (ha : a.Defined) (hb : b.Defined) :
    (a.or b).measure = max a.measure b.measure := by
  unfold Degree.or
  split_ifs with h
  · exact (max_eq_right ((ha.lt_iff hb).mp h).le).symm
  · exact (max_eq_left (not_lt.mp (mt (ha.lt_iff hb).mpr h))).symm

theorem Defined.isPositive_or (ha : a.Defined) (hb : b.Defined) :
    (a.or b).isPositive = (a.isPositive || b.isPositive) := by
  rw [Bool.eq_iff_iff, Bool.or_eq_true, (ha.or hb).isPositive_iff, ha.isPositive_iff,
    hb.isPositive_iff, ha.measure_or hb, lt_max_iff]

theorem Proper.not (ha : a.Proper) : a.not.Proper := by
  obtain ⟨r, hDenotes, -, hNonneg, hOne⟩ := ha.denotes
  obtain ⟨w, hw, hwNonneg, hwOne⟩ := hDenotes.one_sub hNonneg hOne
  have hMeasure : a.not.measure = w := hw.value
  exact ⟨hw.isNaN, hMeasure ▸ hwNonneg, hMeasure ▸ hwOne⟩

end

theorem proper_foldl_or {ds : List Degree} (hds : ∀ d ∈ ds, d.Proper) {a : Degree} (ha : a.Proper) :
    (ds.foldl or a).Proper := by
  induction ds generalizing a with
  | nil => exact ha
  | cons d ds ih =>
    rw [List.foldl_cons]
    exact ih (fun e he => hds e (List.mem_cons_of_mem _ he)) (ha.or (hds d List.mem_cons_self))

theorem measure_foldl_or {ds : List Degree} (hds : ∀ d ∈ ds, d.Defined) {a : Degree}
    (ha : a.Defined) : (ds.foldl or a).measure = (ds.map measure).foldl max a.measure := by
  induction ds generalizing a with
  | nil => rfl
  | cons d ds ih =>
    have hd : d.Defined := hds d List.mem_cons_self
    rw [List.foldl_cons, ih (fun e he => hds e (List.mem_cons_of_mem _ he)) (ha.or hd),
      ha.measure_or hd, List.map_cons, List.foldl_cons]

end Degree

theorem Antecedent.proper_atomDegree {vars : Table Variable} {readings : Readings} {a : TermRef}
    {d : Degree} (h : atomDegree vars readings a = .ok d) : d.Proper := by
  unfold atomDegree at h
  split at h
  · cases h
  · split at h
    · cases h
    · split at h
      · cases h
      · cases h
        exact Degree.proper_clamp _

theorem Antecedent.proper_evaluate {vars : Table Variable} {readings : Readings} {e : Antecedent}
    {d : Degree} (h : e.evaluate vars readings = .ok d) : d.Proper := by
  induction e generalizing d with
  | is owner term declaredIn => exact proper_atomDegree h
  | and l r hl hr =>
    obtain ⟨a, ha, h⟩ := bind_eq_ok_iff.mp h
    obtain ⟨b, hb, h⟩ := bind_eq_ok_iff.mp h
    cases h
    exact (hl ha).and (hr hb)
  | or l r hl hr =>
    obtain ⟨a, ha, h⟩ := bind_eq_ok_iff.mp h
    obtain ⟨b, hb, h⟩ := bind_eq_ok_iff.mp h
    cases h
    exact (hl ha).or (hr hb)
  | not e he =>
    obtain ⟨a, ha, h⟩ := bind_eq_ok_iff.mp h
    cases h
    exact (he ha).not

/-- The degree of a condition is a number of the unit interval, for any shapes, be their corners out of
order, infinite or undefined, and for any readings. -/
theorem Antecedent.unit_of_evaluate {vars : Table Variable} {readings : Readings} {e : Antecedent}
    {d : Degree} (h : e.evaluate vars readings = .ok d) :
    d.value.isNaN = false ∧ 0.0 ≤ d.value ∧ d.value ≤ 1.0 :=
  Degree.proper_iff.mp (proper_evaluate h)

/-- On a ramp that begins at minus infinity the grade is undefined, the degree is not. -/
theorem Antecedent.unit_of_evaluate_steep :
    ((Shape.triangle (-1.0 / 0.0) 0.0 1.0).grade (-1.0)).isNaN = true ∧
    ∃ d, (Antecedent.not (.is "Slope" "Steep" "Slope")).evaluate
        (.ofList [("Slope", ⟨"Slope", [⟨"Steep", .triangle (-1.0 / 0.0) 0.0 1.0⟩]⟩)])
        [("SLOPE", -1.0)] = .ok d ∧
      d.value.isNaN = false ∧ 0.0 ≤ d.value ∧ d.value ≤ 1.0 := by
  have hSome : ((Antecedent.not (.is "Slope" "Steep" "Slope")).evaluate
      (.ofList [("Slope", ⟨"Slope", [⟨"Steep", .triangle (-1.0 / 0.0) 0.0 1.0⟩]⟩)])
      [("SLOPE", -1.0)]).toOption.isSome = true := by decide +kernel
  obtain ⟨d, hd⟩ := Option.isSome_iff_exists.mp hSome
  have hOk := toOption_eq_some_iff.mp hd
  exact ⟨by decide +kernel, d, hOk, unit_of_evaluate hOk⟩

end FuzzyControl
