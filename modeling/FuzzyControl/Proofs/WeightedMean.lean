import FuzzyControl.Proofs.Binary64.Sums
import FuzzyControl.Proofs.Centroid
import FuzzyControl.Proofs.Recording
import FuzzyControl.Proofs.Summation
import FuzzyControl.Proofs.Truth

/-! # How near the number of a set is to the mean

The number of a set stands for a mean of one point a shape, weighted by strength, and such a mean lies
between the ends of the shapes. But it is computed as the quotient of two rounded sums, of products that
are rounded too. `OutputSet.level` is what comes out if all points are in one place; the number of a set
lies between the levels of any two bounds of its shapes, so it lies between the bounds as far as their
levels do. This fails by last digits, and altogether where strengths are so small that products with them
are lost: then the level of each number may be zero.
-/
namespace FuzzyControl

open Binary64

set_option autoImplicit false

namespace Shape

/-- The middle of the plateau as a real number. -/
noncomputable def middle (s : Shape) : ℝ := (value s.middleOfMaximum).toReal

theorem denotes_middle {s : Shape} (h : s.flaw? = none) (hFinite : s.middleOfMaximum.isFinite = true) :
    Denotes s.middleOfMaximum s.middle ∧ value s.support.1 ≤ s.middle ∧
      s.middle ≤ value s.support.2 := by
  obtain ⟨a, b, c, d, hs⟩ := exists_located h
  have hTop : rounded (c - b) ≠ ⊤ := fun hTop =>
    ((hs.denotes_middle_top hTop).isFinite_iff.mp hFinite).2 rfl
  obtain ⟨ht, hAbove, hBelow⟩ := hs.denotes_middle hTop
  have hMiddle : s.middle = halfway b c := by rw [middle, ht.value, EReal.toReal_coe]
  have hLow : value s.support.1 = a := hs.denotes_a.value
  have hHigh : value s.support.2 = d := hs.denotes_d.value
  rw [hMiddle, hLow, hHigh, EReal.coe_le_coe_iff, EReal.coe_le_coe_iff]
  exact ⟨ht, hs.a_le_b.trans hAbove, hBelow.trans hs.c_le_d⟩

end Shape

namespace OutputSet

theorem isFinite_of_mem_of_sum {xs : List Float} (h : (sum xs).isFinite = true) :
    ∀ x ∈ xs, x.isFinite = true := by
  induction xs using List.reverseRecOn with
  | nil => exact List.forall_mem_nil _
  | append_singleton xs x ih =>
    rw [sum_append] at h
    refine List.forall_mem_append.mpr ⟨ih (isFinite_left_of_add h), ?_⟩
    exact List.forall_mem_singleton.mpr (isFinite_right_of_add h)

section

variable {α : Type} {cs : List α} {f : α → Float} {g : α → ℝ}

theorem denotes_sum_nil : Denotes (sum []) (nearestSum [] : ℝ) := ⟨rfl, value_negZero⟩

theorem denotes_sum (hf : ∀ c ∈ cs, Denotes (f c) (g c)) (h : (sum (cs.map f)).isFinite = true) :
    Denotes (sum (cs.map f)) (nearestSum (cs.map g) : ℝ) := by
  induction cs using List.reverseRecOn with
  | nil => exact denotes_sum_nil
  | append_singleton cs c ih =>
    obtain ⟨hInit, hLast⟩ := List.forall_mem_append.mp hf
    rw [List.map_append, List.map_singleton, sum_append] at h ⊢
    rw [List.map_append, List.map_singleton, nearestSum_append]
    have hSum := ih hInit (isFinite_left_of_add h)
    exact (hSum.add (hLast c (List.mem_singleton_self c))).nearest_of_isFinite h

/-- A sum of numbers of the unit interval is a double, however many they are. -/
theorem denotes_sum_of_unit (hf : ∀ c ∈ cs, Denotes (f c) (g c))
    (hUnit : ∀ c ∈ cs, 0 ≤ g c ∧ g c ≤ 1) :
    Denotes (sum (cs.map f)) (nearestSum (cs.map g) : ℝ) := by
  induction cs using List.reverseRecOn with
  | nil => exact denotes_sum_nil
  | append_singleton cs c ih =>
    obtain ⟨hInit, hLast⟩ := List.forall_mem_append.mp hf
    obtain ⟨hUnitInit, hUnitLast⟩ := List.forall_mem_append.mp hUnit
    obtain ⟨hLow, hHigh⟩ := hUnitLast c (List.mem_singleton_self c)
    have hNonneg := nearestSum_nonneg fun d hd => (hUnitInit d hd).1
    have hMost := nearestSum_le_of_le_one fun d hd => (hUnitInit d hd).2
    -- the partial sums get stuck long before they leave the range of doubles
    have hInRange : |nearestSum (cs.map g) + g c| ≤ 2 ^ (54 : ℤ) := by
      rw [abs_of_nonneg (add_nonneg hNonneg hLow)]
      norm_num at hMost ⊢
      linarith
    rw [List.map_append, List.map_singleton, sum_append, List.map_append, List.map_singleton,
      nearestSum_append,
      ← rounded_of_abs_le hInRange (rounded_zpow_ne_top (by norm_num) (by norm_num))]
    exact (ih hInit hUnitInit).add (hLast c (List.mem_singleton_self c))

end

/-- The number of the set, if the point of each shape were `x`. -/
def level (s : OutputSet) (x : Float) : Float :=
  sum (s.contributions.map fun k => k.strength.value * x) / s.total

/-- The sum of the strengths as it is computed. -/
noncomputable def weight (s : OutputSet) : ℝ :=
  nearestSum (s.contributions.map fun k => k.strength.truth)

/-- The quotient of the sums before it is rounded, for any points of the contributions. -/
noncomputable def quotient (s : OutputSet) (p : Contribution → ℝ) : ℝ :=
  nearestSum (s.contributions.map fun k => nearest (k.strength.truth * p k)) / s.weight

/-- The mean of the middles of the plateaus, computed exactly. -/
noncomputable def mean (s : OutputSet) : ℝ :=
  (s.contributions.map fun k => k.strength.truth * k.shape.middle).sum /
    (s.contributions.map fun k => k.strength.truth).sum

/-- How far the quotient of the rounded sums may be from the mean of numbers of magnitude `m`. -/
noncomputable def slack (s : OutputSet) (m : ℝ) : ℝ :=
  m * (growth (3 * s.contributions.length + 1) - 1) +
    growth s.contributions.length * (s.contributions.length * halfGrain) / (value s.total).toReal

/-- The strengths are positive degrees, and the shapes have no flaws. -/
structure Weighed (s : OutputSet) : Prop where
  proper : ∀ k ∈ s.contributions, k.strength.Proper
  positive : ∀ k ∈ s.contributions, k.strength.isPositive = true
  sound : ∀ k ∈ s.contributions, k.shape.flaw? = none

/-- What is true of the number of a set: it lies between the levels of any bounds of the shapes, and so
between bounds that are their own levels; and it is the double nearest to a number near the mean, which
lies between the bounds. -/
structure Averages (s : OutputSet) (v : Float) : Prop where
  below : ∀ x, (s.level x).isFinite = true → (∀ k ∈ s.contributions, x ≤ k.shape.support.1) →
    s.level x ≤ v
  above : ∀ x, (s.level x).isFinite = true → (∀ k ∈ s.contributions, k.shape.support.2 ≤ x) →
    v ≤ s.level x
  near : ∃ z : ℝ, Denotes v (rounded z) ∧ ∀ low high : ℝ,
    (∀ k ∈ s.contributions, low ≤ value k.shape.support.1 ∧ value k.shape.support.2 ≤ high) →
      low ≤ s.mean ∧ s.mean ≤ high ∧ |z - s.mean| ≤ s.slack (max |low| |high|)

theorem weighed_recorded {output : String} {ks : List Contribution}
    (hStrengths : ∀ k ∈ ks, ∃ x, k.strength = Degree.clamp x)
    (hShapes : ∀ k ∈ ks, k.shape.flaw? = none) : (recorded output ks).Weighed := by
  have hProper : ∀ k ∈ ks, k.strength.Proper := by
    intro k hk
    obtain ⟨x, hx⟩ := hStrengths k hk
    rw [hx]
    exact Degree.proper_clamp x
  have hDefined : ∀ k ∈ ks, k.strength.Defined := fun k hk => (hProper k hk).defined
  constructor
  · intro d hd
    obtain ⟨k, hk, hStrength, -⟩ := exists_of_mem_recorded hDefined hd
    rw [← hStrength]
    exact hProper k hk
  · exact fun d hd => isPositive_of_mem_recorded hDefined hd
  · intro d hd
    obtain ⟨k, hFirst, hShape⟩ := (merged_recorded hDefined).first d hd
    rw [← hShape]
    exact hShapes k (mem_counting_iff.mp (List.mem_of_find?_eq_some hFirst)).1

namespace Weighed

variable {s : OutputSet} (hs : s.Weighed)

include hs

theorem denotes_total : Denotes s.total s.weight :=
  denotes_sum_of_unit (fun k hk => (hs.proper k hk).denotes_truth) fun k hk =>
    (hs.proper k hk).truth_mem_unit

theorem denotes_weighted {f : Contribution → Float} {p : Contribution → ℝ}
    (hf : ∀ k ∈ s.contributions, Denotes (f k) (p k))
    (h : (sum (s.contributions.map fun k => k.strength.value * f k)).isFinite = true) :
    Denotes (sum (s.contributions.map fun k => k.strength.value * f k))
      (nearestSum (s.contributions.map fun k => nearest (k.strength.truth * p k)) : ℝ) := by
  refine denotes_sum (fun k hk => ?_) h
  have hFinite := isFinite_of_mem_of_sum h _ (List.mem_map_of_mem hk)
  exact ((hs.proper k hk).denotes_truth.mul (hf k hk)).nearest_of_isFinite hFinite

/-- A number is found if the sum of the strengths is positive, and then it is the quotient. -/
theorem of_defuzzify {strategy : Strategy} {v : Float} (h : s.defuzzify strategy = .ok v) :
    0 < s.weight ∧ s.contributions ≠ [] ∧ v = s.moment strategy / s.total := by
  rw [defuzzify] at h
  split_ifs at h with hTotal
  have hSome := mt (total_le_zero_iff (fun k hk => (hs.proper k hk).defined) hs.positive).mpr hTotal
  rw [hs.denotes_total.le_iff denotes_zero, EReal.coe_le_coe_iff, not_le] at hTotal
  exact ⟨hTotal, hSome, (Except.ok.inj h).symm⟩

section

variable {v : Float} (h : s.defuzzify .middleOfMaximum = .ok v)
  (hMoment : (s.moment .middleOfMaximum).isFinite = true)

include hMoment

theorem denotes_middle {k : Contribution} (hk : k ∈ s.contributions) :
    Denotes k.shape.middleOfMaximum k.shape.middle ∧
      value k.shape.support.1 ≤ k.shape.middle ∧ k.shape.middle ≤ value k.shape.support.2 := by
  have hProduct := isFinite_of_mem_of_sum hMoment _ (List.mem_map_of_mem hk)
  exact Shape.denotes_middle (hs.sound k hk) (isFinite_right_of_mul hProduct)

theorem denotes_moment : Denotes (s.moment .middleOfMaximum)
    (nearestSum (s.contributions.map fun k => nearest (k.strength.truth * k.shape.middle)) : ℝ) :=
  hs.denotes_weighted (fun _ hk => (hs.denotes_middle hMoment hk).1) hMoment

include h

theorem denotes_quotient : Denotes v (rounded (s.quotient fun k => k.shape.middle)) := by
  obtain ⟨hTotal, -, rfl⟩ := hs.of_defuzzify h
  exact (hs.denotes_moment hMoment).div hs.denotes_total hTotal.ne'

end

/-- A level that is a double is the level of one, and computed like the number. -/
theorem exists_denotes_level (hSome : s.contributions ≠ []) (hTotal : 0 < s.weight) {x : Float}
    (h : (s.level x).isFinite = true) :
    ∃ r : ℝ, Denotes x r ∧ Denotes (s.level x) (rounded (s.quotient fun _ => r)) := by
  have hSum := isFinite_left_of_div h
  obtain ⟨k, hk⟩ := List.exists_mem_of_ne_nil _ hSome
  have hProduct := isFinite_of_mem_of_sum hSum _ (List.mem_map_of_mem hk)
  obtain ⟨r, hr⟩ := exists_denotes_of_isFinite (isFinite_right_of_mul hProduct)
  exact ⟨r, hr, (hs.denotes_weighted (fun _ _ => hr) hSum).div hs.denotes_total hTotal.ne'⟩

theorem quotient_mono (hTotal : 0 < s.weight) {p q : Contribution → ℝ}
    (h : ∀ k ∈ s.contributions, p k ≤ q k) : rounded (s.quotient p) ≤ rounded (s.quotient q) := by
  refine rounded_mono (div_le_div_of_nonneg_right (nearestSum_mono fun k hk => ?_) hTotal.le)
  exact nearest_mono (mul_le_mul_of_nonneg_left (h k hk) (hs.proper k hk).truth_mem_unit.1)

theorem sum_truth_pos (hSome : s.contributions ≠ []) :
    0 < (s.contributions.map fun k => k.strength.truth).sum := by
  apply List.sum_pos
  · intro x hx
    obtain ⟨k, hk, rfl⟩ := List.mem_map.mp hx
    have hPositive := (hs.proper k hk).defined.isPositive_iff.mp (hs.positive k hk)
    rwa [(hs.proper k hk).measure_eq, EReal.coe_pos] at hPositive
  · simpa using hSome

/-- Exactly computed, the mean lies between the bounds. -/
theorem mean_between (hSome : s.contributions ≠ []) {low high : ℝ}
    (h : ∀ k ∈ s.contributions, low ≤ k.shape.middle ∧ k.shape.middle ≤ high) :
    low ≤ s.mean ∧ s.mean ≤ high := by
  have hPos := hs.sum_truth_pos hSome
  rw [mean, le_div_iff₀ hPos, div_le_iff₀ hPos, ← List.sum_map_mul_left, ← List.sum_map_mul_left]
  constructor <;> apply List.sum_le_sum <;> intro k hk
  · rw [mul_comm]
    exact mul_le_mul_of_nonneg_left (h k hk).1 (hs.proper k hk).truth_mem_unit.1
  · rw [mul_comm]
    exact mul_le_mul_of_nonneg_right (h k hk).2 (hs.proper k hk).truth_mem_unit.1

theorem averages {v : Float} (h : s.defuzzify .middleOfMaximum = .ok v)
    (hMoment : (s.moment .middleOfMaximum).isFinite = true) : s.Averages v := by
  obtain ⟨hTotal, hSome, -⟩ := hs.of_defuzzify h
  have hv := hs.denotes_quotient h hMoment
  constructor
  case below =>
    intro x hLevel hBound
    obtain ⟨r, hr, hx⟩ := hs.exists_denotes_level hSome hTotal hLevel
    rw [hx.le_iff hv]
    apply hs.quotient_mono hTotal
    intro k hk
    have hLow := (value_le_of_le (hBound k hk)).trans (hs.denotes_middle hMoment hk).2.1
    rwa [hr.value, EReal.coe_le_coe_iff] at hLow
  case above =>
    intro x hLevel hBound
    obtain ⟨r, hr, hx⟩ := hs.exists_denotes_level hSome hTotal hLevel
    rw [hv.le_iff hx]
    apply hs.quotient_mono hTotal
    intro k hk
    have hHigh := (hs.denotes_middle hMoment hk).2.2.trans (value_le_of_le (hBound k hk))
    rwa [hr.value, EReal.coe_le_coe_iff] at hHigh
  case near =>
    refine ⟨_, hv, ?_⟩
    intro low high hBounds
    have hMiddle : ∀ k ∈ s.contributions, low ≤ k.shape.middle ∧ k.shape.middle ≤ high := by
      intro k hk
      obtain ⟨-, hLow, hHigh⟩ := hs.denotes_middle hMoment hk
      exact ⟨EReal.coe_le_coe_iff.mp ((hBounds k hk).1.trans hLow),
        EReal.coe_le_coe_iff.mp (hHigh.trans (hBounds k hk).2)⟩
    obtain ⟨hAbove, hBelow⟩ := hs.mean_between hSome hMiddle
    refine ⟨hAbove, hBelow, ?_⟩
    rw [slack, hs.denotes_total.value, EReal.toReal_coe]
    refine abs_mean_sub_le ?_ ?_ ?_ hTotal
    · exact fun k hk => (hs.proper k hk).denotes_truth.granular
    · exact fun k hk => (hs.proper k hk).truth_mem_unit.1
    · exact fun k hk => abs_le_max_abs_abs (hMiddle k hk).1 (hMiddle k hk).2

end Weighed

theorem Averages.between {s : OutputSet} {v : Float} (h : s.Averages v) {low high : Float}
    (hLow : (s.level low).isFinite = true ∧ low ≤ s.level low)
    (hHigh : (s.level high).isFinite = true ∧ s.level high ≤ high)
    (hBounds : ∀ k ∈ s.contributions, low ≤ k.shape.support.1 ∧ k.shape.support.2 ≤ high) :
    low ≤ v ∧ v ≤ high := by
  constructor
  · exact le_of_le_of_le hLow.2 (h.below low hLow.1 fun k hk => (hBounds k hk).1)
  · exact le_of_le_of_le (h.above high hHigh.1 fun k hk => (hBounds k hk).2) hHigh.2

end OutputSet

/-- The contribution with the point `x` for its shape. -/
def Contribution.pointed (x : Float) (k : Contribution) : Contribution :=
  { k with shape := .triangle x x x }

theorem Shape.middleOfMaximum_point {x : Float} (h : x.isFinite = true) :
    (Shape.triangle x x x).flaw? = none ∧ ((Shape.triangle x x x).middleOfMaximum == x) = true := by
  obtain ⟨r, hr⟩ := exists_denotes_of_isFinite h
  have hLe : x ≤ x := (hr.le_iff hr).mpr le_rfl
  refine ⟨?_, middleOfMaximum_triangle h⟩
  rw [flaw?_eq_none_iff]
  simp [Corners.toList, h, hLe]

namespace OutputSet

def pointed (x : Float) (s : OutputSet) : OutputSet :=
  { s with contributions := s.contributions.map (Contribution.pointed x) }

theorem merge_map_pointed (x : Float) (c : Contribution) (ds : List Contribution) :
    merge (c.pointed x) (ds.map (Contribution.pointed x)) =
      (merge c ds).map (Contribution.pointed x) := by
  induction ds with
  | nil => rfl
  | cons d ds ih =>
    rw [List.map_cons, merge, merge, ih]
    change (if d.term = c.term then _ else _) = _
    split_ifs <;> rfl

theorem record_pointed (x : Float) (s : OutputSet) (c : Contribution) :
    (s.pointed x).record (c.pointed x) = (s.record c).pointed x := by
  rw [record, record]
  change (if c.strength.isPositive then _ else _) = _
  split_ifs
  · exact congrArg (OutputSet.mk s.output) (merge_map_pointed x c s.contributions)
  · rfl

theorem recorded_pointed (x : Float) (output : String) (ks : List Contribution) :
    recorded output (ks.map (Contribution.pointed x)) = (recorded output ks).pointed x := by
  induction ks using List.reverseRecOn with
  | nil => rfl
  | append_singleton ks k ih =>
    rw [List.map_append, List.map_singleton, recorded_append, ih, record_pointed, recorded_append]

/-- Points in one place leave the strengths as they are, and the number is the level of the place. -/
theorem defuzzify_pointed {s : OutputSet} (h : ¬ s.total ≤ 0.0) (x : Float) :
    (s.pointed x).defuzzify .middleOfMaximum =
      .ok (s.level (Shape.triangle x x x).middleOfMaximum) := by
  have hTotal : (s.pointed x).total = s.total := by
    rw [total, pointed, List.map_map]
    rfl
  have hMoment : (s.pointed x).moment .middleOfMaximum = sum (s.contributions.map fun k =>
      k.strength.value * (Shape.triangle x x x).middleOfMaximum) := by
    rw [moment, pointed, List.map_map]
    rfl
  rw [defuzzify, hTotal, hMoment, if_neg h, level]

/-- Strengths are clamped, shapes are flawless, and the set has a number. Where the weighted points add
up to no double, the number is none either. Otherwise it is near the mean, and between bounds of the
shapes whose levels are between them. That cannot be improved: if all shapes are one point, then the
number is the level of that point. -/
theorem mean_of_recorded {output : String} {ks : List Contribution} {v : Float}
    (hStrengths : ∀ k ∈ ks, ∃ x, k.strength = Degree.clamp x)
    (hShapes : ∀ k ∈ ks, k.shape.flaw? = none)
    (h : (recorded output ks).defuzzify .middleOfMaximum = .ok v) :
    (((recorded output ks).moment .middleOfMaximum).isFinite = false → v.isFinite = false) ∧
    (((recorded output ks).moment .middleOfMaximum).isFinite = true →
      (recorded output ks).Averages v ∧
      ∀ low high : Float,
        ((recorded output ks).level low).isFinite = true ∧ low ≤ (recorded output ks).level low →
        ((recorded output ks).level high).isFinite = true ∧ (recorded output ks).level high ≤ high →
        (∀ k ∈ (recorded output ks).contributions,
          low ≤ k.shape.support.1 ∧ k.shape.support.2 ≤ high) →
        low ≤ v ∧ v ≤ high) ∧
    ∀ x : Float, x.isFinite = true → (Shape.triangle x x x).flaw? = none ∧
      ∃ y, (y == x) = true ∧
        (recorded output (ks.map (Contribution.pointed x))).defuzzify .middleOfMaximum =
          .ok ((recorded output ks).level y) := by
  have hWeighed := @weighed_recorded output _ hStrengths hShapes
  obtain ⟨hTotal, -, hEq⟩ := hWeighed.of_defuzzify h
  refine ⟨?_, ?_, ?_⟩
  · intro hMoment
    rw [hEq, ← Bool.not_eq_true]
    intro hFinite
    rw [isFinite_left_of_div hFinite] at hMoment
    cases hMoment
  · intro hMoment
    have hAverages := hWeighed.averages h hMoment
    exact ⟨hAverages, fun low high => hAverages.between⟩
  · intro x hx
    obtain ⟨hPoint, hSame⟩ := Shape.middleOfMaximum_point hx
    have hFires : ¬ (recorded output ks).total ≤ 0.0 := by
      rw [hWeighed.denotes_total.le_iff denotes_zero, EReal.coe_le_coe_iff, not_le]
      exact hTotal
    refine ⟨hPoint, _, hSame, ?_⟩
    rw [recorded_pointed, defuzzify_pointed hFires]

/-- Two overlapping terms, one of them twice as strong. -/
def overlapping : List Contribution :=
  [⟨"Low", .triangle 0.0 25.0 50.0, .clamp 0.5⟩, ⟨"High", .triangle 25.0 50.0 75.0, .clamp 0.25⟩]

theorem mean_of_recorded_overlapping :
    ∃ v, (∀ k ∈ overlapping, ∃ x, k.strength = Degree.clamp x) ∧
      (∀ k ∈ overlapping, k.shape.flaw? = none) ∧
      (recorded "Power" overlapping).defuzzify .middleOfMaximum = .ok v ∧ 0.0 ≤ v ∧ v ≤ 75.0 := by
  have hStrengths : ∀ k ∈ overlapping, ∃ x, k.strength = Degree.clamp x := by
    simp only [overlapping, List.forall_mem_cons]
    exact ⟨⟨_, rfl⟩, ⟨_, rfl⟩, List.forall_mem_nil _⟩
  have hShapes : ∀ k ∈ overlapping, k.shape.flaw? = none := by
    simp only [overlapping, List.forall_mem_cons]
    exact ⟨by decide +kernel, by decide +kernel, List.forall_mem_nil _⟩
  have hNumber : (recorded "Power" overlapping).defuzzify .middleOfMaximum =
      .ok 33.333333333333336 := by decide +kernel
  obtain ⟨-, hFinite, -⟩ := mean_of_recorded hStrengths hShapes hNumber
  refine ⟨_, hStrengths, hShapes, hNumber, ?_⟩
  apply (hFinite (by decide +kernel)).2
  · decide +kernel
  · decide +kernel
  · decide +kernel

/-- One term, with the least positive strength. -/
def faint : List Contribution := [⟨"Low", .triangle 0.25 0.25 0.25, .clamp 5e-324⟩]

/-- The product of the strength and the point is lost, the strength is not: the number is zero, although
the only point is a fourth. -/
theorem not_supports_faint :
    (∀ k ∈ faint, k.shape.flaw? = none) ∧ (recorded "Fan" faint).contributions.length = 1 ∧
      (recorded "Fan" faint).defuzzify .middleOfMaximum = .ok 0.0 ∧
      ∀ k ∈ (recorded "Fan" faint).contributions, ¬ k.shape.Supports 0.0 := by
  decide +kernel

end OutputSet

end FuzzyControl
