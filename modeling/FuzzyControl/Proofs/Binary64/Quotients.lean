import FuzzyControl.Proofs.Binary64.Definedness
import FuzzyControl.Proofs.Binary64.Identity

/-! # Products and quotients

The product of two finite doubles and their quotient, unless the divisor is zero, are the exact ones,
rounded. A quotient is cut off after enough digits, and the remainder of the division says how the rest
compares with half a digit. A finite double divided by infinity is zero, infinity by infinity is
undefined, and what is undefined stays so.
-/
namespace FuzzyControl.Binary64

open Float.Model Float.Model.UnpackedFloat

set_option autoImplicit false

theorem apply_eq_mul (s : Sign) (m : ℤ) : s.apply m = s.apply 1 * m := by
  cases s <;> simp [Sign.apply]

theorem apply_mul_sign (s t : Sign) : (s * t).apply 1 = s.apply 1 * t.apply 1 := by
  cases s <;> cases t <;> rfl

theorem apply_div_sign (s t : Sign) : (s / t).apply 1 = s.apply 1 * t.apply 1 := by
  cases s <;> cases t <;> rfl

theorem apply_one_mul_self (s : Sign) : ((s.apply 1 : ℤ) : ℝ) * (s.apply 1 : ℤ) = 1 := by
  cases s <;> simp [Sign.apply]

theorem rounds_dyadic (s : Sign) {n : ℕ} {f : ℤ} {x : ℝ} (hFits : Fits n f)
    (h : (n : ℝ) * 2 ^ f = nearest x) : Rounds (dyadic s n f) (s.apply 1 * x) := by
  refine ⟨(canonical_dyadic s hFits).1, (canonical_dyadic s hFits).2, ?_⟩
  rw [extended_settle_dyadic s hFits, rounded]
  cases s with
  | positive =>
    simp only [Sign.apply]
    rw [Int.cast_natCast, h, Int.cast_one, one_mul]
  | negative =>
    simp only [Sign.apply]
    push_cast
    rw [neg_mul, h, neg_one_mul, nearest_neg]

theorem Fits.le_lastPlace_mul {m n : ℕ} {e f : ℤ} (hm : 0 < m) (hn : 0 < n) (he : Fits m e)
    (hf : Fits n f) : e + f ≤ lastPlace (((m * n : ℕ) : ℝ) * 2 ^ (e + f)) := by
  have hProduct : 0 < m * n := Nat.mul_pos hm hn
  rw [← targetExponent_eq hProduct, targetExponent_totalExponent]
  by_cases hLong : 2 ^ 52 ≤ m * n
  · have hLog : 52 ≤ (m * n).log2 := (Nat.le_log2 hProduct.ne').mpr hLong
    omega
  · have hLeft : e = -1074 := he.leading.resolve_left fun h =>
      hLong (h.trans (Nat.le_mul_of_pos_right m hn))
    have hRight : f = -1074 := hf.leading.resolve_left fun h =>
      hLong (h.trans (Nat.le_mul_of_pos_left n hm))
    omega

section

variable {u v : UnpackedFloat} {a b : ℝ}

theorem Parts.mul (hu : Parts u a) (hv : Parts v b) : Rounds (u.mul .binary64 v) (a * b) := by
  cases hu with
  | zero s =>
    rw [zero_mul]
    cases hv <;> exact (Parts.zero _).rounds
  | @finite s m e hm hFits hRange =>
    cases hv with
    | zero t =>
      rw [mul_zero]
      exact (Parts.zero _).rounds
    | @finite t n f hn hFits' hRange' =>
      obtain ⟨k, g, hFits'', hNearest, hRound⟩ := roundWithAccuracy_spec (s * t)
        (Nat.mul_pos hm hn) (hFits.le_lastPlace_mul hm hn hFits')
      have hValue : ((s.apply m : ℤ) : ℝ) * 2 ^ e * ((t.apply n : ℤ) * 2 ^ f) =
          (s * t).apply 1 * (((m * n : ℕ) : ℝ) * 2 ^ (e + f)) := by
        rw [apply_eq_mul s, apply_eq_mul t, apply_mul_sign, zpow_add₀ two_ne_zero]
        push_cast
        ring
      rw [hValue]
      change Rounds (roundWithAccuracy .binary64 (s * t) (m * n) (e + f) .exact) _
      rw [hRound]
      exact rounds_dyadic (s * t) hFits'' hNearest

end

theorem marks_quotient (m : ℕ) {n : ℕ} (hn : 0 < n) :
    Marks (.ofMantissaAndAccuracy (m / n) (accuracyOfFraction (m % n) n)) ((m : ℝ) / n) := by
  have hPos : (0 : ℝ) < n := by exact_mod_cast hn
  have hFloor : ⌊(m : ℝ) / n⌋ = ((m / n : ℕ) : ℤ) := by
    have h := Int.floor_div_natCast (m : ℝ) n
    rw [Int.floor_natCast] at h
    exact_mod_cast h
  have hFract : Int.fract ((m : ℝ) / n) = ((m % n : ℕ) : ℝ) / n := by
    have hDivMod : ((m / n : ℕ) : ℝ) * n + ((m % n : ℕ) : ℝ) = m := by
      exact_mod_cast Nat.div_add_mod' m n
    rw [Int.fract, hFloor, Int.cast_natCast, eq_div_iff hPos.ne', sub_mul,
      div_mul_cancel₀ _ hPos.ne']
    linarith
  have hHalf : ∀ {o : Ordering}, compare (2 * (m % n)) n = o →
      compare (Int.fract ((m : ℝ) / n)) (1 / 2) = o := by
    rintro o rfl
    have hMono : StrictMono fun k : ℕ => (k : ℝ) / (2 * n) := fun k l h =>
      div_lt_div_of_pos_right (Nat.cast_lt.mpr h) (by positivity)
    have hLeft : Int.fract ((m : ℝ) / n) = ((2 * (m % n) : ℕ) : ℝ) / (2 * n) := by
      rw [hFract]
      push_cast
      rw [mul_div_mul_left _ _ two_ne_zero]
    have hRight : (1 : ℝ) / 2 = (n : ℝ) / (2 * n) := by
      rw [div_mul_cancel_right₀ hPos.ne', one_div]
    rw [hLeft, hRight, ← cmp_eq_compare, ← cmp_eq_compare]
    exact hMono.cmp_map_eq _ _
  unfold accuracyOfFraction
  by_cases hZero : m % n = 0
  · have hExact : Int.fract ((m : ℝ) / n) = 0 := by rw [hFract, hZero, Nat.cast_zero, zero_div]
    rw [if_pos hZero]
    constructor <;> simp [ExtendedMantissa.ofMantissaAndAccuracy, hFloor, hExact]
  · have hInexact : Int.fract ((m : ℝ) / n) ≠ 0 := by
      rw [hFract]
      exact div_ne_zero (by exact_mod_cast hZero) hPos.ne'
    rw [if_neg hZero]
    cases hOrder : compare (2 * (m % n)) n with
    | lt =>
      have hLt := compare_lt_iff_lt.mp (hHalf hOrder)
      refine ⟨hFloor, iff_of_false Bool.false_ne_true (not_le.mpr hLt), ?_⟩
      exact iff_of_true rfl ⟨hInexact, hLt.ne⟩
    | eq =>
      have hEq := compare_eq_iff_eq.mp (hHalf hOrder)
      refine ⟨hFloor, iff_of_true rfl hEq.ge, ?_⟩
      exact iff_of_false Bool.false_ne_true fun h => h.2 hEq
    | gt =>
      have hGt := compare_gt_iff_gt.mp (hHalf hOrder)
      refine ⟨hFloor, iff_of_true rfl hGt.le, ?_⟩
      exact iff_of_true rfl ⟨hInexact, hGt.ne'⟩

theorem log_sub_one_le_log_div {m n : ℕ} {e f : ℤ} (hm : 0 < m) (hn : 0 < n) :
    (m.log2 : ℤ) + e - ((n.log2 : ℤ) + f) - 1 ≤
      Int.log 2 ((m : ℝ) * 2 ^ e / ((n : ℝ) * 2 ^ f)) := by
  have hDivisor : (0 : ℝ) < n * 2 ^ f := by positivity
  have hLow : ((2 : ℕ) : ℝ) ^ ((m.log2 : ℤ) + e) ≤ m * 2 ^ e := by
    rw [← log_of_floor hm (floor_mul_zpow_div m e)]
    exact Int.zpow_log_le_self (by norm_num) (by positivity)
  have hHigh : (n : ℝ) * 2 ^ f ≤ ((2 : ℕ) : ℝ) ^ ((n.log2 : ℤ) + f + 1) := by
    rw [← log_of_floor hn (floor_mul_zpow_div n f)]
    exact (Int.lt_zpow_succ_log_self (by norm_num) _).le
  rw [← Int.zpow_le_iff_le_log (by norm_num) (by positivity), le_div_iff₀ hDivisor]
  calc
    ((2 : ℕ) : ℝ) ^ ((m.log2 : ℤ) + e - ((n.log2 : ℤ) + f) - 1) * (n * 2 ^ f)
      ≤ ((2 : ℕ) : ℝ) ^ ((m.log2 : ℤ) + e - ((n.log2 : ℤ) + f) - 1) *
          ((2 : ℕ) : ℝ) ^ ((n.log2 : ℤ) + f + 1) :=
        mul_le_mul_of_nonneg_left hHigh (by positivity)
    _ = ((2 : ℕ) : ℝ) ^ ((m.log2 : ℤ) + e) := by
        rw [← zpow_add₀ (by norm_num)]
        congr 1
        ring
    _ ≤ m * 2 ^ e := hLow

theorem divCore_spec (s : Sign) {m n : ℕ} (e f : ℤ) (hm : 0 < m) (hn : 0 < n) :
    ∃ k g, Fits k g ∧ (k : ℝ) * 2 ^ g = nearest (m * 2 ^ e / (n * 2 ^ f)) ∧
      roundWithAccuracy .binary64 s (divCore .binary64 m e n f).1 (divCore .binary64 m e n f).2.1
        (divCore .binary64 m e n f).2.2 = dyadic s k g := by
  obtain ⟨t, ht⟩ : ∃ t, t = min (e - f)
      (Format.binary64.targetExponent (totalExponent m e - totalExponent n f)) := ⟨_, rfl⟩
  obtain ⟨d, hd⟩ : ∃ d, d = (e - f - t).toNat := ⟨_, rfl⟩
  have hCore : divCore .binary64 m e n f =
      (m <<< d / n, t, accuracyOfFraction (m <<< d % n) n) := by
    rw [divCore, ← ht, ← hd]
  have hQuot : (m : ℝ) * 2 ^ e / (n * 2 ^ f) / 2 ^ t = ((m <<< d : ℕ) : ℝ) / n := by
    have hShift : e = f + t + d := by omega
    have hDivisor : (n : ℝ) ≠ 0 := by exact_mod_cast hn.ne'
    rw [hShift, Nat.shiftLeft_eq, zpow_add₀ two_ne_zero, zpow_add₀ two_ne_zero, zpow_natCast]
    push_cast
    field_simp
  have hLow : t ≤ lastPlace (m * 2 ^ e / (n * 2 ^ f)) := by
    have hLog := log_sub_one_le_log_div (e := e) (f := f) hm hn
    have hTarget : t ≤ max ((m.log2 : ℤ) + 1 + e - ((n.log2 : ℤ) + 1 + f) - 53) (-1074) := by
      rw [ht]
      exact min_le_right _ _
    rw [lastPlace_of_pos (by positivity)]
    omega
  rw [hCore]
  apply roundWithAccuracy_of_marks s (by positivity) hLow
  rw [hQuot]
  exact marks_quotient _ hn

section

variable {u v : UnpackedFloat} {a b : ℝ}

theorem Parts.div (hu : Parts u a) (hv : Parts v b) (hb : b ≠ 0) :
    Rounds (u.div .binary64 v) (a / b) := by
  cases hv with
  | zero t => exact absurd rfl hb
  | @finite t n f hn hFits' hRange' =>
    cases hu with
    | zero s =>
      rw [zero_div]
      exact (Parts.zero _).rounds
    | @finite s m e hm hFits hRange =>
      obtain ⟨k, g, hFits'', hNearest, hRound⟩ := divCore_spec (s / t) e f hm hn
      have hInverse : ((t.apply 1 : ℤ) : ℝ)⁻¹ = (t.apply 1 : ℤ) :=
        inv_eq_of_mul_eq_one_left (apply_one_mul_self t)
      have hValue : ((s.apply m : ℤ) : ℝ) * 2 ^ e / ((t.apply n : ℤ) * 2 ^ f) =
          (s / t).apply 1 * ((m : ℝ) * 2 ^ e / (n * 2 ^ f)) := by
        rw [apply_eq_mul s, apply_eq_mul t, apply_div_sign]
        push_cast
        rw [mul_assoc, mul_assoc, mul_div_mul_comm, div_eq_mul_inv ((s.apply 1 : ℤ) : ℝ), hInverse]
      have hRounds := rounds_dyadic (s / t) hFits'' hNearest
      rw [← hRound] at hRounds
      rw [hValue]
      exact hRounds

theorem Parts.div_infinity (hu : Parts u a) (t : Sign) :
    ∃ s, u.div .binary64 (.infinity t) = .zero s := by
  cases hu <;> exact ⟨_, rfl⟩

theorem Parts.infinity_sub (hu : Parts u a) (s : Sign) :
    (UnpackedFloat.infinity s).sub .binary64 u = .infinity s := by
  cases hu <;> rfl

theorem Parts.sub_infinity (hu : Parts u a) (s : Sign) :
    u.sub .binary64 (.infinity s) = .infinity (-s) := by
  cases hu <;> rfl

theorem Parts.infinity_div (hv : Parts v b) (hb : 0 < b) :
    (UnpackedFloat.infinity .positive).div .binary64 v = .infinity .positive := by
  cases hv with
  | zero s => exact absurd hb (lt_irrefl 0)
  | @finite s m e hm hFits hRange =>
    cases s with
    | positive => rfl
    | negative =>
      have hNonpos : ((Sign.negative.apply m : ℤ) : ℝ) * 2 ^ e ≤ 0 := by
        rw [Sign.apply, Int.cast_neg, neg_mul, neg_nonpos]
        positivity
      exact absurd hb (not_lt.mpr hNonpos)

end

section

variable {x y : Float} {a b : ℝ}

theorem Denotes.mul (hx : Denotes x a) (hy : Denotes y b) : Denotes (x * y) (rounded (a * b)) :=
  (hx.parts.mul hy.parts).denotes rfl

theorem Denotes.div (hx : Denotes x a) (hy : Denotes y b) (hb : b ≠ 0) :
    Denotes (x / y) (rounded (a / b)) :=
  (hx.parts.div hy.parts hb).denotes rfl

theorem Denotes.neg (hx : Denotes x a) : Denotes (-x) ((-a : ℝ) : EReal) := by
  rw [← hx.parts.neg.rounded_eq]
  exact hx.parts.neg.rounds.denotes rfl

theorem denotes_two : Denotes 2.0 (2 : ℝ) := by
  refine ⟨rfl, ?_⟩
  change extended (.finite .positive (2 ^ 52) (-51) (by decide)) = _
  rw [extended_positive]
  norm_num

theorem denotes_three : Denotes 3.0 (3 : ℝ) := by
  refine ⟨rfl, ?_⟩
  change extended (.finite .positive (3 * 2 ^ 51) (-51) (by decide)) = _
  rw [extended_positive]
  norm_num

theorem denotes_fourth : Denotes 0.25 ((1 / 4 : ℝ) : EReal) := by
  refine ⟨rfl, ?_⟩
  change extended (.finite .positive (2 ^ 52) (-54) (by decide)) = _
  rw [extended_positive]
  norm_num

theorem denotes_half : Denotes 0.5 ((1 / 2 : ℝ) : EReal) := by
  refine ⟨rfl, ?_⟩
  change extended (.finite .positive (2 ^ 52) (-53) (by decide)) = _
  rw [extended_positive]
  norm_num

theorem denotes_of_unpack {u : UnpackedFloat} (h : u.isNaN = false) (hx : x.toModel.unpack = u) :
    Denotes x (extended u) := by
  subst hx
  exact ⟨h, rfl⟩

theorem denotes_value (h : x.isNaN = false) : Denotes x (value x) :=
  ⟨h, rfl⟩

theorem Denotes.isFinite_iff {v : EReal} (h : Denotes x v) : x.isFinite = true ↔ v ≠ ⊥ ∧ v ≠ ⊤ := by
  obtain ⟨hNaN, rfl⟩ := h
  change x.toModel.unpack.isNaN = false at hNaN
  change x.toModel.unpack.isFinite = true ↔ extended x.toModel.unpack ≠ ⊥ ∧
    extended x.toModel.unpack ≠ ⊤
  cases hUnpack : x.toModel.unpack with
  | notANumber =>
    rw [hUnpack] at hNaN
    cases hNaN
  | infinity s =>
    cases s with
    | positive => exact iff_of_false Bool.false_ne_true fun h => h.2 rfl
    | negative => exact iff_of_false Bool.false_ne_true fun h => h.1 rfl
  | zero s => exact iff_of_true rfl ⟨EReal.zero_ne_bot, EReal.zero_ne_top⟩
  | finite s m e hm => exact iff_of_true rfl ⟨EReal.coe_ne_bot _, EReal.coe_ne_top _⟩

theorem isNaN_eq_false_of_isFinite (h : x.isFinite = true) : x.isNaN = false := by
  change x.toModel.unpack.isFinite = true at h
  change x.toModel.unpack.isNaN = false
  cases hUnpack : x.toModel.unpack with
  | notANumber =>
    rw [hUnpack] at h
    cases h
  | _ => rfl

theorem exists_denotes_of_isFinite (h : x.isFinite = true) : ∃ a : ℝ, Denotes x a := by
  have hValue := denotes_value (isNaN_eq_false_of_isFinite h)
  obtain ⟨hBot, hTop⟩ := hValue.isFinite_iff.mp h
  exact ⟨(value x).toReal, by rwa [EReal.coe_toReal hTop hBot]⟩

theorem Denotes.lt_iff {v w : EReal} (hx : Denotes x v) (hy : Denotes y w) : x < y ↔ v < w := by
  rw [Binary64.lt_iff hx.isNaN hy.isNaN, hx.value, hy.value]

theorem Denotes.le_iff {v w : EReal} (hx : Denotes x v) (hy : Denotes y w) : x ≤ y ↔ v ≤ w := by
  rw [Binary64.le_iff hx.isNaN hy.isNaN, hx.value, hy.value]

theorem Denotes.beq_iff {v w : EReal} (hx : Denotes x v) (hy : Denotes y w) :
    (x == y) = true ↔ v = w := by
  rw [Binary64.beq_iff hx.isNaN hy.isNaN, hx.value, hy.value]

theorem le_of_le_of_le {z : Float} (h : x ≤ y) (h' : y ≤ z) : x ≤ z := by
  have hx := denotes_value (isNaN_eq_false_of_le h).1
  have hy := denotes_value (isNaN_eq_false_of_le h).2
  have hz := denotes_value (isNaN_eq_false_of_le h').2
  exact (hx.le_iff hz).mpr (((hx.le_iff hy).mp h).trans ((hy.le_iff hz).mp h'))

theorem value_le_of_le (h : x ≤ y) : value x ≤ value y :=
  (Binary64.le_iff (isNaN_eq_false_of_le h).1 (isNaN_eq_false_of_le h).2).mp h

theorem value_lt_of_lt (h : x < y) : value x < value y :=
  (Binary64.lt_iff (isNaN_eq_false_of_lt h).1 (isNaN_eq_false_of_lt h).2).mp h

theorem Denotes.add_top {v : EReal} (hx : Denotes x v) (hv : v ≠ ⊥) (hy : Denotes y ⊤) :
    Denotes (x + y) ⊤ := by
  rw [add_symm]
  induction v with
  | bot => exact absurd rfl hv
  | coe a => exact hy.top_add hx
  | top =>
    have hUnpack : (y + x).toModel.unpack = .infinity .positive := by
      change (Float.Model.pack (y.toModel.unpack.add .binary64 x.toModel.unpack)).unpack = _
      rw [hx.unpack_top, hy.unpack_top]
      rfl
    exact denotes_of_unpack rfl hUnpack

/-- Adding what is not negative comes out at least as great as both summands, infinite or not. -/
theorem Denotes.le_add {v w : EReal} (hx : Denotes x v) (hv : 0 ≤ v) (hy : Denotes y w)
    (hw : 0 ≤ w) : ∃ u, Denotes (x + y) u ∧ v ≤ u ∧ w ≤ u := by
  induction w with
  | bot => exact absurd hw (not_le.mpr EReal.bot_lt_zero)
  | top => exact ⟨⊤, hx.add_top (EReal.bot_lt_zero.trans_le hv).ne' hy, le_top, le_rfl⟩
  | coe b =>
    induction v with
    | bot => exact absurd hv (not_le.mpr EReal.bot_lt_zero)
    | top => exact ⟨⊤, hx.top_add hy, le_rfl, le_top⟩
    | coe a =>
      refine ⟨rounded (a + b), hx.add hy, ?_, ?_⟩
      · rw [← hx.rounded_eq]
        exact rounded_mono (le_add_of_nonneg_right (EReal.coe_nonneg.mp hw))
      · rw [← hy.rounded_eq]
        exact rounded_mono (le_add_of_nonneg_left (EReal.coe_nonneg.mp hv))

/-- Infinity stays what it is unless the same infinity is subtracted. -/
theorem Denotes.infinity_sub {s : Sign} {w : EReal} (hx : Denotes x (extended (.infinity s)))
    (hy : Denotes y w) (hw : w ≠ extended (.infinity s)) :
    Denotes (x - y) (extended (.infinity s)) := by
  have hUnpack : (x - y).toModel.unpack = .infinity s := by
    change (Float.Model.pack (x.toModel.unpack.sub .binary64 y.toModel.unpack)).unpack = _
    rw [hx.unpack_infinity]
    induction w with
    | coe b =>
      rw [hy.parts.infinity_sub]
      cases s <;> rfl
    | bot =>
      cases s with
      | negative => exact absurd rfl hw
      | positive =>
        rw [hy.unpack_bot]
        rfl
    | top =>
      cases s with
      | positive => exact absurd rfl hw
      | negative =>
        rw [hy.unpack_top]
        rfl
  exact denotes_of_unpack rfl hUnpack

theorem Denotes.sub_infinity {s : Sign} (hx : Denotes x a)
    (hy : Denotes y (extended (.infinity s))) : Denotes (x - y) (extended (.infinity (-s))) := by
  have hUnpack : (x - y).toModel.unpack = .infinity (-s) := by
    change (Float.Model.pack (x.toModel.unpack.sub .binary64 y.toModel.unpack)).unpack = _
    rw [hy.unpack_infinity, hx.parts.sub_infinity]
    cases s <;> rfl
  exact denotes_of_unpack rfl hUnpack

theorem Denotes.top_div (hx : Denotes x ⊤) (hy : Denotes y b) (hb : 0 < b) : Denotes (x / y) ⊤ := by
  have hUnpack : (x / y).toModel.unpack = .infinity .positive := by
    change (Float.Model.pack (x.toModel.unpack.div .binary64 y.toModel.unpack)).unpack = _
    rw [hx.unpack_top, hy.parts.infinity_div hb]
    rfl
  exact denotes_of_unpack rfl hUnpack

theorem Denotes.div_top (hx : Denotes x a) (hy : Denotes y ⊤) : Denotes (x / y) 0 := by
  obtain ⟨s, hZero⟩ := hx.parts.div_infinity .positive
  have hUnpack : (x / y).toModel.unpack = .zero s := by
    change (Float.Model.pack (x.toModel.unpack.div .binary64 y.toModel.unpack)).unpack = _
    rw [hy.unpack_top, hZero]
    cases s <;> rfl
  exact denotes_of_unpack rfl hUnpack

theorem isNaN_top_div_top (hx : Denotes x ⊤) (hy : Denotes y ⊤) : (x / y).isNaN = true := by
  refine (isNaN_unpack_pack _).trans ?_
  rw [hx.unpack_top, hy.unpack_top]
  rfl

theorem unpack_of_isNaN (h : x.isNaN = true) : x.toModel.unpack = .notANumber := by
  change x.toModel.unpack.isNaN = true at h
  cases hUnpack : x.toModel.unpack with
  | notANumber => rfl
  | infinity s =>
    rw [hUnpack] at h
    cases h
  | zero s =>
    rw [hUnpack] at h
    cases h
  | finite s m e hm =>
    rw [hUnpack] at h
    cases h

theorem isNaN_div_of_isNaN (h : x.isNaN = true) (y : Float) : (x / y).isNaN = true := by
  refine (isNaN_unpack_pack _).trans ?_
  rw [unpack_of_isNaN h]
  rfl

theorem isNaN_sub_of_isNaN (h : x.isNaN = true) (y : Float) : (x - y).isNaN = true := by
  refine (isNaN_unpack_pack _).trans ?_
  rw [unpack_of_isNaN h]
  rfl

end

end FuzzyControl.Binary64
