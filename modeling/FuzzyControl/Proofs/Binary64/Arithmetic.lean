import FuzzyControl.Proofs.Binary64.Normalize

/-! # Sums and differences

The sum and the difference of two finite doubles are the exact ones, rounded. With the order of
rounding this says that a sum of positive doubles does not vanish, however small they are, and that the
complement of a number between zero and one is again between zero and one.
-/
namespace FuzzyControl.Binary64

open Float.Model Float.Model.UnpackedFloat

set_option autoImplicit false

/-- Parts that a finite double can have, and the real number they stand for. -/
inductive Parts : UnpackedFloat → ℝ → Prop
  | zero (s : Sign) : Parts (.zero s) 0
  | finite (s : Sign) {m : ℕ} {e : ℤ} (h : 0 < m) (hFits : Fits m e) (hRange : e ≤ 971) :
      Parts (.finite s m e h) (s.apply m * 2 ^ e)

section

variable {u v : UnpackedFloat} {a b : ℝ}

theorem apply_neg (s : Sign) (m : ℕ) : (-s).apply m = -s.apply m := by
  cases s with
  | positive => rfl
  | negative => exact (neg_neg _).symm

theorem abs_apply (s : Sign) (m : ℕ) : |s.apply m| = m := by
  cases s <;> simp [Sign.apply]

theorem Parts.representable (h : Parts u a) : Representable a ∧ |a| < limit := by
  cases h with
  | zero s =>
    refine ⟨⟨0, 0, by norm_num, by norm_num, by simp⟩, ?_⟩
    rw [abs_zero]
    exact limit_pos
  | @finite s m e hPos hFits hRange =>
    constructor
    · refine ⟨s.apply m, e, ?_, hFits.le, rfl⟩
      rw [abs_apply]
      exact_mod_cast hFits.lt
    · have hMantissa : |((s.apply m : ℤ) : ℝ)| = m := by exact_mod_cast abs_apply s m
      rw [abs_mul, hMantissa, abs_of_pos (by positivity)]
      exact not_le.mp (mt hFits.range.mpr (by omega))

theorem Parts.rounded_eq (h : Parts u a) : rounded a = a :=
  rounded_eq_self h.representable.1 h.representable.2

theorem Parts.rounds (h : Parts u a) : Rounds u a := by
  have hRounded := h.rounded_eq
  cases h with
  | zero s => exact ⟨trivial, rfl, hRounded.symm⟩
  | @finite s m e hPos hFits hRange =>
    have hSettle : settle (.finite s m e hPos) = .finite s m e hPos := if_neg (not_lt.mpr hRange)
    constructor
    · exact hFits
    · rw [hSettle]
      rfl
    · rw [hSettle, hRounded]
      rfl

theorem Parts.neg (h : Parts u a) : Parts u.neg (-a) := by
  cases h with
  | zero s =>
    rw [neg_zero]
    exact .zero (-s)
  | @finite s m e hPos hFits hRange =>
    rw [← neg_mul, ← Int.cast_neg, ← apply_neg]
    exact .finite (-s) hPos hFits hRange

theorem apply_mul (s : Sign) {m n : ℕ} {e f : ℤ} (h : (m : ℝ) * 2 ^ e = n * 2 ^ f) :
    ((s.apply m : ℤ) : ℝ) * 2 ^ e = (s.apply n : ℤ) * 2 ^ f := by
  cases s with
  | positive => exact_mod_cast h
  | negative =>
    simp only [Sign.apply]
    push_cast
    linarith

theorem Parts.add (hu : Parts u a) (hv : Parts v b) : Rounds (u.add .binary64 v) (a + b) := by
  have hLeft := hu.rounds
  have hRight := hv.rounds
  cases hu with
  | zero s =>
    rw [zero_add]
    cases hv with
    | zero t =>
      change Rounds (if s == t then .zero s else .zero .positive) 0
      split_ifs
      · exact (Parts.zero s).rounds
      · exact (Parts.zero .positive).rounds
    | finite t hPos hFits hRange => exact hRight
  | @finite s m e hPos hFits hRange =>
    cases hv with
    | zero t =>
      rw [add_zero]
      exact hLeft
    | @finite t n f hPos' hFits' hRange' =>
      have hSmaller := apply_mul s (decreaseExponent_fst m e (min e f))
      have hSmaller' := apply_mul t (decreaseExponent_fst n f (min e f))
      rw [min_eq_right (min_le_left e f)] at hSmaller
      rw [min_eq_right (min_le_right e f)] at hSmaller'
      rw [← hSmaller, ← hSmaller', ← add_mul, ← Int.cast_add]
      exact rounds_normalize _ _ _

theorem Parts.infinity_add (hu : Parts u a) (s : Sign) :
    (UnpackedFloat.infinity s).add .binary64 u = .infinity s := by
  cases hu <;> rfl

theorem sub_eq_add (u v : UnpackedFloat) : u.sub .binary64 v = u.add .binary64 v.neg := by
  cases u <;> cases v
  case finite.finite s m e hm t n f hn =>
    change UnpackedFloat.normalize _ (s.apply _ - t.apply _) _ _ =
      UnpackedFloat.normalize _ (s.apply _ + (-t).apply _) _ _
    rw [apply_neg, sub_eq_add_neg]
  all_goals rfl

theorem Parts.sub (hu : Parts u a) (hv : Parts v b) : Rounds (u.sub .binary64 v) (a - b) := by
  rw [sub_eq_add, sub_eq_add_neg]
  exact hu.add hv.neg

end

/-- The double is defined, and stands for `v`. -/
structure Denotes (x : Float) (v : EReal) : Prop where
  isNaN : x.isNaN = false
  value : value x = v

section

variable {x y : Float} {a b : ℝ}

theorem Denotes.parts (h : Denotes x a) : Parts x.toModel.unpack a := by
  obtain ⟨hNaN, hValue⟩ := h
  obtain ⟨hCanonical, hSettle⟩ := canonical_unpack x.toModel
  change x.toModel.unpack.isNaN = false at hNaN
  change extended x.toModel.unpack = a at hValue
  cases hUnpack : x.toModel.unpack with
  | notANumber =>
    rw [hUnpack] at hNaN
    cases hNaN
  | infinity s =>
    rw [hUnpack] at hValue
    cases s
    · exact absurd hValue.symm (EReal.coe_ne_bot a)
    · exact absurd hValue.symm (EReal.coe_ne_top a)
  | zero s =>
    rw [hUnpack] at hValue
    have hZero : 0 = a := EReal.coe_injective hValue
    rw [← hZero]
    exact .zero s
  | finite s m e hPos =>
    rw [hUnpack] at hValue hCanonical hSettle
    have hReal : s.apply m * 2 ^ e = a := EReal.coe_injective hValue
    rw [← hReal]
    refine .finite s hPos hCanonical ?_
    by_contra hRange
    rw [settle, if_pos (by omega)] at hSettle
    cases hSettle

theorem Rounds.denotes {u : UnpackedFloat} (h : Rounds u a) (hx : x.toModel = Float.Model.pack u) :
    Denotes x (rounded a) := by
  have hUnpack : x.toModel.unpack = settle u := by rw [hx, unpack_pack h.canonical]
  constructor
  · change x.toModel.unpack.isNaN = false
    rw [hUnpack, h.isNaN]
  · rw [Binary64.value, hUnpack, h.extended]

theorem Denotes.add (hx : Denotes x a) (hy : Denotes y b) : Denotes (x + y) (rounded (a + b)) :=
  (hx.parts.add hy.parts).denotes rfl

theorem Denotes.rounded_eq (h : Denotes x a) : rounded a = a :=
  h.parts.rounded_eq

theorem denotes_zero : Denotes 0.0 (0 : ℝ) := ⟨rfl, rfl⟩

theorem denotes_one : Denotes 1.0 (1 : ℝ) := ⟨rfl, value_one⟩

theorem Denotes.sub (hx : Denotes x a) (hy : Denotes y b) : Denotes (x - y) (rounded (a - b)) :=
  (hx.parts.sub hy.parts).denotes rfl

theorem Denotes.unpack_infinity {s : Sign} (h : Denotes x (extended (.infinity s))) :
    x.toModel.unpack = .infinity s := by
  obtain ⟨hNaN, hValue⟩ := h
  change x.toModel.unpack.isNaN = false at hNaN
  change extended x.toModel.unpack = extended (.infinity s) at hValue
  cases hUnpack : x.toModel.unpack with
  | notANumber =>
    rw [hUnpack] at hNaN
    cases hNaN
  | infinity t =>
    rw [hUnpack] at hValue
    cases s <;> cases t
    · rfl
    · exact absurd hValue top_ne_bot
    · exact absurd hValue bot_ne_top
    · rfl
  | zero t =>
    rw [hUnpack] at hValue
    cases s
    · exact absurd hValue EReal.zero_ne_bot
    · exact absurd hValue EReal.zero_ne_top
  | finite t m e hPos =>
    rw [hUnpack] at hValue
    cases s
    · exact absurd hValue (EReal.coe_ne_bot _)
    · exact absurd hValue (EReal.coe_ne_top _)

theorem Denotes.unpack_top (h : Denotes x ⊤) : x.toModel.unpack = .infinity .positive :=
  Denotes.unpack_infinity h

theorem Denotes.unpack_bot (h : Denotes x ⊥) : x.toModel.unpack = .infinity .negative :=
  Denotes.unpack_infinity h

theorem Denotes.top_add (hx : Denotes x ⊤) (hy : Denotes y b) : Denotes (x + y) ⊤ := by
  have hUnpack : (x + y).toModel.unpack = .infinity .positive := by
    change (Float.Model.pack (x.toModel.unpack.add .binary64 y.toModel.unpack)).unpack = _
    rw [hx.unpack_top, hy.parts.infinity_add]
    rfl
  constructor
  · change (x + y).toModel.unpack.isNaN = false
    rw [hUnpack]
    rfl
  · rw [Binary64.value, hUnpack]
    rfl

theorem Denotes.one_sub (hx : Denotes x a) (ha : 0 ≤ a) (hOne : a ≤ 1) :
    ∃ w, Denotes (1.0 - x) w ∧ 0 ≤ w ∧ w ≤ 1 := by
  refine ⟨rounded (1 - a), denotes_one.sub hx, ?_, ?_⟩
  · calc
      (0 : EReal) = rounded 0 := denotes_zero.rounded_eq.symm
      _ ≤ rounded (1 - a) := rounded_mono (by linarith)
  · calc
      rounded (1 - a) ≤ rounded 1 := rounded_mono (by linarith)
      _ = 1 := denotes_one.rounded_eq

end

end FuzzyControl.Binary64
