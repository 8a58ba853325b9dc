import Mathlib

/-! # Bit patterns of doubles

A double is computed with by taking it apart into a sign, a mantissa and an exponent, and putting the
result together again. Taking apart gives canonical parts only (`canonical_unpack`), and putting
canonical parts together loses nothing, except that too great an exponent gives an infinity
(`unpack_pack`).
-/
namespace FuzzyControl.Binary64

open Float.Model Float.Model.UnpackedFloat

set_option autoImplicit false

/-- Mantissa and exponent of a double: fifty-three bits with the leading one, or fewer bits at the
least exponent. -/
structure Fits (m : Nat) (e : Int) : Prop where
  lt : m < 2 ^ 53
  le : -1074 ≤ e
  leading : 2 ^ 52 ≤ m ∨ e = -1074

def Canonical : UnpackedFloat → Prop
  | .finite _ m e _ => Fits m e
  | _ => True

/-- The result of putting together: an exponent that is too great means infinity. -/
def settle : UnpackedFloat → UnpackedFloat
  | .finite s m e h => if 971 < e then .infinity s else .finite s m e h
  | u => u

theorem toNat_leading_append (v : BitVec 52) : (1#1 ++ v).toNat = 2 ^ 52 + v.toNat := by
  rw [BitVec.toNat_append, ← Nat.shiftLeft_add_eq_or_of_lt v.isLt]
  rfl

theorem ofBitVec_unpackSign_packComponents (s : Sign) (ev : BitVec 11) (mv : BitVec 52) :
    Sign.ofBitVec (unpackSign (packComponents .binary64 s ev mv)) = s := by
  have hSign : unpackSign (packComponents .binary64 s ev mv) = s.toBitVec := by
    change (s.toBitVec ++ ev ++ mv).extractLsb' 63 1 = s.toBitVec
    rw [BitVec.extractLsb'_append_eq_of_le (by decide),
      BitVec.extractLsb'_append_eq_of_le (by decide)]
    exact BitVec.extractLsb'_eq_self
  rw [hSign]
  cases s <;> rfl

theorem finite_congr {s : Sign} {m n : Nat} {e f : Int} (hm : 0 < m) (hmn : m = n) (hef : e = f) :
    UnpackedFloat.finite s m e hm = .finite s n f (hmn ▸ hm) := by
  subst hmn hef
  rfl

theorem unpack_normal (s : Sign) (ev : BitVec 11) (mv : BitVec 52) (hZero : ev ≠ 0#11)
    (hOnes : ev ≠ -1#11) :
    UnpackedFloat.unpack .binary64 (packComponents .binary64 s ev mv) =
      .finite s (2 ^ 52 + mv.toNat) (ev.toNat - 1075) (by positivity) := by
  rw [UnpackedFloat.unpack]
  simp only [unpackMantissa_packComponents, unpackExponent_packComponents, if_neg hOnes,
    if_neg hZero, ofBitVec_unpackSign_packComponents]
  exact finite_congr _ (toNat_leading_append mv) rfl

theorem unpack_subnormal (s : Sign) (mv : BitVec 52) (h : 0 < mv.toNat) :
    UnpackedFloat.unpack .binary64 (packComponents .binary64 s 0#11 mv) = .finite s mv.toNat (-1074) h := by
  have hMantissa : mv ≠ 0#52 := by
    rintro rfl
    exact absurd h (lt_irrefl 0)
  rw [UnpackedFloat.unpack]
  simp only [unpackMantissa_packComponents, unpackExponent_packComponents,
    ofBitVec_unpackSign_packComponents]
  rw [if_neg (by decide), if_pos trivial, dif_neg hMantissa]
  exact finite_congr _ rfl rfl

theorem canonical_unpack (x : Float.Model) :
    Canonical x.unpack ∧ settle x.unpack = x.unpack := by
  have hExponent := (@unpackExponent .binary64 x.toBits.toBitVec).isLt
  have hMantissa := (@unpackMantissa .binary64 x.toBits.toBitVec).isLt
  have hBias : ((Format.binary64.exponentBias : Int) +
      Format.binary64.mantissaBitsWithoutImplicit) = 1075 := rfl
  change _ < 2048 at hExponent
  change _ < 2 ^ 52 at hMantissa
  rw [Float.Model.unpack, UnpackedFloat.unpack]
  split
  · split <;> exact ⟨trivial, rfl⟩
  · rename_i hOnes
    split
    · rename_i hZero
      split
      · exact ⟨trivial, rfl⟩
      · have hLeast : ((@unpackExponent .binary64 x.toBits.toBitVec).toNat : Int) -
            (Format.binary64.exponentBias + Format.binary64.mantissaBitsWithoutImplicit) + 1 =
              -1074 := by
          rw [hZero]
          rfl
        rw [hLeast]
        exact ⟨⟨hMantissa.trans (by decide), le_rfl, .inr rfl⟩, rfl⟩
    · rename_i hZero
      have hPos : (@unpackExponent .binary64 x.toBits.toBitVec).toNat ≠ 0 :=
        fun h => hZero (BitVec.eq_of_toNat_eq h)
      have hLt : (@unpackExponent .binary64 x.toBits.toBitVec).toNat ≠ 2047 :=
        fun h => hOnes (BitVec.eq_of_toNat_eq h)
      have hLeading := toNat_leading_append (@unpackMantissa .binary64 x.toBits.toBitVec)
      constructor
      · constructor
        · rw [hLeading]
          omega
        · rw [hBias]
          omega
        · left
          rw [hLeading]
          omega
      · rw [settle, if_neg]
        rw [hBias]
        omega

theorem unpack_pack_finite (s : Sign) {m : Nat} {e : Int} (hm : 0 < m) (hFits : Fits m e) :
    (Float.Model.pack (.finite s m e hm)).unpack = settle (.finite s m e hm) := by
  have hLow := hFits.le
  have hBiased : (e + Format.binary64.exponentBias +
      Format.binary64.mantissaBitsWithoutImplicit).toNat = (e + 1075).toNat := by
    change (e + 1023 + 52).toNat = (e + 1075).toNat
    omega
  change UnpackedFloat.unpack .binary64 (UnpackedFloat.pack .binary64 (.finite s m e hm)) = _
  rw [UnpackedFloat.pack, settle]
  simp only [hBiased]
  by_cases hOver : 971 < e
  · rw [if_pos hOver, if_pos (by omega)]
    cases s <;> rfl
  · rw [if_neg hOver, if_neg (by omega)]
    by_cases hNormal : 2 ^ 52 ≤ m
    · have hLog : m.log2 = 52 := (Nat.log2_eq_iff hm.ne').mpr ⟨hNormal, hFits.lt⟩
      have hExponent : (BitVec.ofNat 11 (e + 1075).toNat).toNat = (e + 1075).toNat := by
        rw [BitVec.toNat_ofNat]
        omega
      have hMantissa : 2 ^ 52 + (BitVec.ofNat 52 m).toNat = m := by
        have hLt := hFits.lt
        rw [BitVec.toNat_ofNat]
        omega
      rw [if_pos (by rw [hLog]; rfl)]
      change UnpackedFloat.unpack .binary64 (packComponents .binary64 s (BitVec.ofNat 11 (e + 1075).toNat)
        (BitVec.ofNat 52 m)) = _
      rw [unpack_normal]
      · exact finite_congr _ hMantissa (by rw [hExponent]; omega)
      · intro h
        have := congrArg BitVec.toNat h
        rw [hExponent] at this
        change (e + 1075).toNat = 0 at this
        omega
      · intro h
        have := congrArg BitVec.toNat h
        rw [hExponent] at this
        change (e + 1075).toNat = 2047 at this
        omega
    · have hLeast : e = -1074 := hFits.leading.resolve_left hNormal
      have hLog : m.log2 < 52 := (Nat.log2_lt hm.ne').mpr (by omega)
      have hMantissa : (BitVec.ofNat 52 m).toNat = m := by
        rw [BitVec.toNat_ofNat]
        omega
      rw [if_neg (by change m.log2 + 1 ≠ 53; omega)]
      change UnpackedFloat.unpack .binary64 (packComponents .binary64 s 0#11 (BitVec.ofNat 52 m)) = _
      rw [unpack_subnormal s _ (by rw [hMantissa]; exact hm)]
      exact finite_congr _ hMantissa hLeast.symm

theorem unpack_pack {u : UnpackedFloat} (h : Canonical u) : (Float.Model.pack u).unpack = settle u := by
  cases u with
  | infinity s => cases s <;> rfl
  | notANumber => rfl
  | zero s => cases s <;> rfl
  | finite s m e hm => exact unpack_pack_finite s hm h

end FuzzyControl.Binary64
