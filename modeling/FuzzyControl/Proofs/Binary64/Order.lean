import FuzzyControl.Proofs.Binary64.Packing

/-! # The order of doubles

A double that is a number stands for an extended real, its `value`; both zeros stand for zero. The
comparisons of doubles are those of their values, and a comparison with something undefined is false.
-/
namespace FuzzyControl.Binary64

open Float.Model Float.Model.UnpackedFloat

set_option autoImplicit false

noncomputable def extended : UnpackedFloat → EReal
  | .infinity .positive => ⊤
  | .infinity .negative => ⊥
  | .notANumber => 0
  | .zero _ => 0
  | .finite s m e _ => ((s.apply m * ((2 : ℕ) : ℝ) ^ e : ℝ) : EReal)

/-- The extended real that a double stands for; zero if it is undefined. -/
noncomputable def value (x : Float) : EReal := extended x.toModel.unpack

theorem compare_neg (x y : ℝ) : compare (-x) (-y) = (compare x y).swap := by
  rw [← cmp_eq_compare, ← cmp_eq_compare, cmp_swap]
  exact StrictAnti.cmp_map_eq (f := fun z : ℝ => -z) (fun _ _ => neg_lt_neg) x y

theorem compare_coe (x y : ℝ) : compare (x : EReal) (y : EReal) = compare x y := by
  rw [← cmp_eq_compare, ← cmp_eq_compare]
  exact EReal.coe_strictMono.cmp_map_eq x y

theorem Fits.lt_of_exponent_lt {m n : Nat} {e f : Int} (hm : Fits m e) (hn : Fits n f) (h : e < f) :
    (m : ℝ) * 2 ^ e < n * 2 ^ f := by
  have hLeading : 2 ^ 52 ≤ n := hn.leading.resolve_right (by have := hm.le; omega)
  have hLow : (m : ℝ) < 2 ^ 53 := by exact_mod_cast hm.lt
  have hHigh : (2 : ℝ) ^ 52 ≤ n := by exact_mod_cast hLeading
  calc
    (m : ℝ) * 2 ^ e < 2 ^ 53 * 2 ^ e := mul_lt_mul_of_pos_right hLow (by positivity)
    _ = 2 ^ 52 * 2 ^ (e + 1) := by rw [zpow_add_one₀ two_ne_zero]; ring
    _ ≤ 2 ^ 52 * 2 ^ f :=
      mul_le_mul_of_nonneg_left (zpow_le_zpow_right₀ (by norm_num) (by omega)) (by positivity)
    _ ≤ n * 2 ^ f := mul_le_mul_of_nonneg_right hHigh (by positivity)

theorem Fits.compare {m n : Nat} {e f : Int} (hm : Fits m e) (hn : Fits n f) :
    (compare e f).then (compare m n) = Ord.compare ((m : ℝ) * 2 ^ e) (n * 2 ^ f) := by
  obtain h | rfl | h := lt_trichotomy e f
  · rw [compare_lt_iff_lt.mpr h, compare_lt_iff_lt.mpr (hm.lt_of_exponent_lt hn h)]
    rfl
  · have hMono : StrictMono fun k : ℕ => (k : ℝ) * 2 ^ e := fun k l h =>
      mul_lt_mul_of_pos_right (Nat.cast_lt.mpr h) (by positivity)
    rw [compare_eq_iff_eq.mpr rfl, Ordering.eq_then, ← cmp_eq_compare, ← cmp_eq_compare]
    exact (hMono.cmp_map_eq m n).symm
  · rw [compare_gt_iff_gt.mpr h, compare_gt_iff_gt.mpr (hn.lt_of_exponent_lt hm h)]
    rfl

theorem extended_positive {m : Nat} {e : Int} (h : 0 < m) :
    extended (.finite .positive m e h) = ((m * 2 ^ e : ℝ) : EReal) := by
  simp [extended, Sign.apply]

theorem extended_negative {m : Nat} {e : Int} (h : 0 < m) :
    extended (.finite .negative m e h) = ((-(m * 2 ^ e) : ℝ) : EReal) := by
  simp [extended, Sign.apply]

theorem extended_positive_pos {m : Nat} {e : Int} (h : 0 < m) :
    0 < extended (.finite .positive m e h) := by
  rw [extended_positive]
  have : (0 : ℝ) < m * 2 ^ e := by positivity
  exact_mod_cast this

theorem extended_negative_neg {m : Nat} {e : Int} (h : 0 < m) :
    extended (.finite .negative m e h) < 0 := by
  rw [extended_negative]
  have : -((m : ℝ) * 2 ^ e) < 0 := neg_lt_zero.mpr (by positivity)
  exact_mod_cast this

theorem compare_eq {u v : UnpackedFloat} (hu : Canonical u) (hv : Canonical v)
    (hun : u.isNaN = false) (hvn : v.isNaN = false) :
    u.compare v = some (compare (extended u) (extended v)) := by
  have hLt : ∀ {x y : EReal}, x < y → some Ordering.lt = some (compare x y) := fun h =>
    congrArg some (compare_lt_iff_lt.mpr h).symm
  have hGt : ∀ {x y : EReal}, y < x → some Ordering.gt = some (compare x y) := fun h =>
    congrArg some (compare_gt_iff_gt.mpr h).symm
  have hEq : ∀ {x : EReal}, some Ordering.eq = some (compare x x) :=
    congrArg some (compare_eq_iff_eq.mpr rfl).symm
  cases u with
  | notANumber => cases hun
  | infinity s =>
    cases v with
    | notANumber => cases hvn
    | infinity t => cases s <;> cases t <;> first | exact hEq | exact hGt bot_lt_top | exact hLt bot_lt_top
    | zero t => cases s <;> first | exact hLt EReal.bot_lt_zero | exact hGt EReal.zero_lt_top
    | finite t n f hn =>
      cases s <;> first | exact hLt (EReal.bot_lt_coe _) | exact hGt (EReal.coe_lt_top _)
  | zero s =>
    cases v with
    | notANumber => cases hvn
    | infinity t => cases t <;> first | exact hGt EReal.bot_lt_zero | exact hLt EReal.zero_lt_top
    | zero t => exact hEq
    | finite t n f hn =>
      cases t with
      | negative => exact hGt (extended_negative_neg hn)
      | positive => exact hLt (extended_positive_pos hn)
  | finite s m e hm =>
    cases v with
    | notANumber => cases hvn
    | infinity t =>
      cases t <;> cases s <;> first | exact hGt (EReal.bot_lt_coe _) | exact hLt (EReal.coe_lt_top _)
    | zero t =>
      cases s with
      | negative => exact hLt (extended_negative_neg hm)
      | positive => exact hGt (extended_positive_pos hm)
    | finite t n f hn =>
      cases s with
      | negative =>
        cases t with
        | negative =>
          rw [extended_negative, extended_negative, compare_coe, compare_neg, ← hu.compare hv]
          rfl
        | positive => exact hLt ((extended_negative_neg hm).trans (extended_positive_pos hn))
      | positive =>
        cases t with
        | negative => exact hGt ((extended_negative_neg hn).trans (extended_positive_pos hm))
        | positive =>
          rw [extended_positive, extended_positive, compare_coe, ← hu.compare hv]
          rfl

section

variable {x y : Float}

theorem compare_unpack (hx : x.isNaN = false) (hy : y.isNaN = false) :
    x.toModel.unpack.compare y.toModel.unpack = some (compare (value x) (value y)) :=
  compare_eq (canonical_unpack _).1 (canonical_unpack _).1 hx hy

theorem lt_iff_unpack : x < y ↔ x.toModel.unpack.compare y.toModel.unpack = some .lt :=
  decide_eq_true_iff.trans beq_iff_eq

theorem le_iff_unpack : x ≤ y ↔
    (x.toModel.unpack.compare y.toModel.unpack).any (·.isLE) = true :=
  decide_eq_true_iff

theorem lt_iff (hx : x.isNaN = false) (hy : y.isNaN = false) : x < y ↔ value x < value y := by
  rw [lt_iff_unpack, compare_unpack hx hy, Option.some_inj, compare_lt_iff_lt]

theorem le_iff (hx : x.isNaN = false) (hy : y.isNaN = false) : x ≤ y ↔ value x ≤ value y := by
  rw [le_iff_unpack, compare_unpack hx hy, Option.any_some, Ordering.isLE_iff_ne_gt]
  exact compare_le_iff_le

theorem beq_iff (hx : x.isNaN = false) (hy : y.isNaN = false) : (x == y) = true ↔ value x = value y := by
  change (x.toModel.unpack.compare y.toModel.unpack == some .eq) = true ↔ _
  rw [beq_iff_eq, compare_unpack hx hy, Option.some_inj, compare_eq_iff_eq]

theorem compare_eq_none_of_isNaN (h : x.isNaN = true ∨ y.isNaN = true) :
    x.toModel.unpack.compare y.toModel.unpack = none := by
  have hNaN : ∀ {u : UnpackedFloat}, u.isNaN = true → u = .notANumber := by
    intro u hu
    cases u <;> first | rfl | cases hu
  obtain h | h := h
  · rw [hNaN h]
    rfl
  · rw [hNaN h]
    cases x.toModel.unpack <;> rfl

theorem isNaN_eq_false_of_lt (h : x < y) : x.isNaN = false ∧ y.isNaN = false := by
  rw [lt_iff_unpack] at h
  constructor <;> apply Bool.eq_false_iff.mpr <;> intro hNaN
  · rw [compare_eq_none_of_isNaN (.inl hNaN)] at h
    cases h
  · rw [compare_eq_none_of_isNaN (.inr hNaN)] at h
    cases h

theorem isNaN_eq_false_of_le (h : x ≤ y) : x.isNaN = false ∧ y.isNaN = false := by
  rw [le_iff_unpack] at h
  constructor <;> apply Bool.eq_false_iff.mpr <;> intro hNaN
  · rw [compare_eq_none_of_isNaN (.inl hNaN)] at h
    cases h
  · rw [compare_eq_none_of_isNaN (.inr hNaN)] at h
    cases h

end

@[simp] theorem value_zero : value 0.0 = 0 := rfl

@[simp] theorem value_negZero : value (-0.0) = 0 := rfl

@[simp] theorem value_one : value 1.0 = 1 := by
  change extended (.finite .positive (2 ^ 52) (-52) (by decide)) = 1
  rw [extended_positive]
  norm_num

end FuzzyControl.Binary64
