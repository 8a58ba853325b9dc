import FuzzyControl.Proofs.Binary64.Arithmetic

/-! # Which double it is

A number other than zero is the value of one double only, and zero is that of two. So it can be said of
sums which doubles they are: two terms may be exchanged, negative zero adds nothing, and a sum is
negative zero only if both terms are.
-/
namespace FuzzyControl.Binary64

open Float.Model Float.Model.UnpackedFloat

set_option autoImplicit false

section

variable {x y : Float}

theorem ext_unpack (h : x.toModel.unpack = y.toModel.unpack) : x = y := by
  obtain ⟨⟨⟨b⟩, hb⟩⟩ := x
  obtain ⟨⟨⟨c⟩, hc⟩⟩ := y
  have hBits : b = c := by
    calc
      b = UnpackedFloat.pack .binary64 (UnpackedFloat.unpack .binary64 b) :=
        (pack_unpack_of_valid hb).symm
      _ = UnpackedFloat.pack .binary64 (UnpackedFloat.unpack .binary64 c) :=
        congrArg (UnpackedFloat.pack .binary64) h
      _ = c := pack_unpack_of_valid hc
  subst hBits
  rfl

theorem ext_unpack_iff : x = y ↔ x.toModel.unpack = y.toModel.unpack :=
  ⟨fun h => h ▸ rfl, ext_unpack⟩

theorem eq_or_of_value_eq (hx : x.isNaN = false) (hy : y.isNaN = false) (h : value x = value y) :
    x = y ∨ (x = 0.0 ∧ y = -0.0) ∨ (x = -0.0 ∧ y = 0.0) := by
  have hEqual : x.toModel.unpack.beq y.toModel.unpack = true := (beq_iff hx hy).mpr h
  obtain ⟨-, -, hSame⟩ := (beq_iff_ne_notANumber_and_eq _ _).mp hEqual
  exact hSame.imp ext_unpack
    (Or.imp (And.imp (ext_unpack (y := 0.0)) (ext_unpack (y := -0.0)))
      (And.imp (ext_unpack (y := -0.0)) (ext_unpack (y := 0.0))))

theorem Denotes.eq_of_ne_zero {v : EReal} (hx : Denotes x v) (hy : Denotes y v) (hv : v ≠ 0) :
    x = y := by
  obtain h | ⟨rfl, -⟩ | ⟨rfl, -⟩ := eq_or_of_value_eq hx.isNaN hy.isNaN (hx.value.trans hy.value.symm)
  · exact h
  · exact absurd hx.value.symm hv
  · exact absurd hx.value.symm hv

theorem Denotes.eq_zero_or (h : Denotes x 0) : x = 0.0 ∨ x = -0.0 := by
  obtain h | ⟨h, -⟩ | ⟨h, -⟩ := eq_or_of_value_eq h.isNaN (y := 0.0) rfl h.value
  · exact .inl h
  · exact .inl h
  · exact .inr h

theorem add_symm (x y : Float) : x + y = y + x := by
  have hParts : ∀ u v : UnpackedFloat, u.add .binary64 v = v.add .binary64 u := by
    intro u v
    cases u with
    | notANumber => cases v <;> rfl
    | infinity s =>
      cases v with
      | infinity t => cases s <;> cases t <;> rfl
      | _ => rfl
    | zero s =>
      cases v with
      | zero t => cases s <;> cases t <;> rfl
      | _ => rfl
    | finite s m e hm =>
      cases v with
      | finite t n f hn =>
        simp only [UnpackedFloat.add, min_comm f e]
        rw [Int.add_comm]
      | _ => rfl
  exact congrArg (fun u => Float.ofModel (Float.Model.pack u)) (hParts _ _)

theorem unpack_negZero : (-0.0 : Float).toModel.unpack = .zero .negative := rfl

theorem negZero_add (x : Float) : -0.0 + x = x := by
  have hParts : ∀ u : UnpackedFloat, (UnpackedFloat.zero .negative).add .binary64 u = u := by
    intro u
    cases u with
    | zero s => cases s <;> rfl
    | _ => rfl
  apply ext_unpack
  change (Float.Model.pack (UnpackedFloat.add .binary64 (.zero .negative) x.toModel.unpack)).unpack = _
  obtain ⟨hCanonical, hSettle⟩ := canonical_unpack x.toModel
  rw [hParts, unpack_pack hCanonical, hSettle]

/-- What rounds to zero is zero: no sum is so small that it vanishes. -/
theorem settle_normalize_ne_negZero {m e : ℤ} (he : -1074 ≤ e) :
    settle (UnpackedFloat.normalize .binary64 m e .positive) ≠ .zero .negative := by
  have hRound : ∀ (s : Sign) {n : ℕ}, 0 < n →
      settle (UnpackedFloat.round .binary64 s n e) ≠ .zero .negative := by
    intro s n hn
    obtain ⟨k, f, -, hValue, hRound⟩ := round_spec s hn e
    have hLeast : (2 : ℝ) ^ (-1074 : ℤ) ≤ n * 2 ^ e := by
      have hOne : (1 : ℝ) ≤ n := by exact_mod_cast hn
      calc
        (2 : ℝ) ^ (-1074 : ℤ) ≤ 2 ^ e := zpow_le_zpow_right₀ (by norm_num) he
        _ ≤ n * 2 ^ e := le_mul_of_one_le_left (by positivity) hOne
    have hExact : nearest ((2 : ℝ) ^ (-1074 : ℤ)) = 2 ^ (-1074 : ℤ) :=
      nearest_eq_self ⟨1, -1074, by norm_num, le_rfl, by simp⟩
    have hPos : (0 : ℝ) < k * 2 ^ f := by
      rw [hValue]
      calc
        (0 : ℝ) < 2 ^ (-1074 : ℤ) := by positivity
        _ = nearest (2 ^ (-1074 : ℤ)) := hExact.symm
        _ ≤ nearest (n * 2 ^ e) := nearest_mono hLeast
    have hk : k ≠ 0 := by
      rintro rfl
      simp at hPos
    rw [hRound, dyadic, dif_neg hk, settle]
    split_ifs <;> rintro ⟨⟩
  rw [UnpackedFloat.normalize]
  obtain h | rfl | h := lt_trichotomy m 0
  · rw [compare_lt_iff_lt.mpr h]
    exact hRound _ (by omega)
  · rintro ⟨⟩
  · rw [compare_gt_iff_gt.mpr h]
    exact hRound _ (by omega)

theorem canonical_add {u v : UnpackedFloat} (hu : Canonical u) (hv : Canonical v) :
    Canonical (u.add .binary64 v) := by
  cases u with
  | notANumber => exact trivial
  | infinity s =>
    cases v with
    | infinity t => cases s <;> cases t <;> exact trivial
    | _ => exact trivial
  | zero s =>
    cases v with
    | zero t => cases s <;> cases t <;> exact trivial
    | _ => exact hv
  | finite s m e hm =>
    cases v with
    | finite t n f hn => exact (rounds_normalize _ _ _).canonical
    | zero t => exact hu
    | _ => exact trivial

theorem settle_add_eq_negZero {u v : UnpackedFloat} (hu : Canonical u) (hv : Canonical v)
    (h : settle (u.add .binary64 v) = .zero .negative) :
    u = .zero .negative ∧ v = .zero .negative := by
  have hFinite : ∀ {s : Sign} {m : ℕ} {e : ℤ} {hm : 0 < m},
      settle (.finite s m e hm) ≠ .zero .negative := by
    intro s m e hm
    rw [settle]
    split_ifs <;> rintro ⟨⟩
  cases u with
  | notANumber => cases v <;> cases h
  | infinity s =>
    cases v with
    | infinity t => cases s <;> cases t <;> cases h
    | _ => cases h
  | zero s =>
    cases v with
    | zero t => cases s <;> cases t <;> first | exact ⟨rfl, rfl⟩ | cases h
    | finite t n f hn => exact absurd h hFinite
    | _ => cases h
  | finite s m e hm =>
    cases v with
    | finite t n f hn => exact absurd h (settle_normalize_ne_negZero (le_min hu.le hv.le))
    | zero t => exact absurd h hFinite
    | _ => cases h

theorem canonical_neg {u : UnpackedFloat} (hu : Canonical u) : Canonical u.neg := by
  cases u <;> exact hu

theorem eq_negZero_of_sub (h : x - y = -0.0) : x = -0.0 := by
  obtain ⟨hx, -⟩ := canonical_unpack x.toModel
  obtain ⟨hy, -⟩ := canonical_unpack y.toModel
  have hUnpack : (x - y).toModel.unpack =
      settle (x.toModel.unpack.add .binary64 y.toModel.unpack.neg) := by
    rw [← sub_eq_add]
    exact unpack_pack (sub_eq_add _ _ ▸ canonical_add hx (canonical_neg hy))
  rw [ext_unpack_iff, hUnpack, unpack_negZero] at h
  exact ext_unpack (settle_add_eq_negZero hx (canonical_neg hy) h).1

theorem add_eq_negZero_iff : x + y = -0.0 ↔ x = -0.0 ∧ y = -0.0 := by
  obtain ⟨hx, -⟩ := canonical_unpack x.toModel
  obtain ⟨hy, -⟩ := canonical_unpack y.toModel
  have hUnpack : (x + y).toModel.unpack =
      settle (x.toModel.unpack.add .binary64 y.toModel.unpack) :=
    unpack_pack (canonical_add hx hy)
  constructor
  · intro h
    rw [ext_unpack_iff, hUnpack, unpack_negZero] at h
    exact (settle_add_eq_negZero hx hy h).imp (fun h => ext_unpack h) fun h => ext_unpack h
  · rintro ⟨rfl, rfl⟩
    rfl

end

end FuzzyControl.Binary64
