import FuzzyControl.Codec.Shape
import FuzzyControl.Proofs.Binary64.Definedness
import FuzzyControl.Proofs.UnitInterval

/-! # Degrees that can be obtained

A degree is a clamped number or is read from a text, and degrees are combined by the connectives.
Nothing undefined comes of this, since every number that can be read is defined. Clamping ends in the
unit interval, and the connectives do not leave it, but reading asks for no bounds: there are degrees
outside exactly if one can be read.
-/
namespace FuzzyControl.Degree

open Binary64

set_option autoImplicit false

/-- The degrees that there are if some texts are read. -/
inductive Obtainable (admits : String → Prop) : Degree → Prop where
  | clamp (x : Float) : Obtainable admits (.clamp x)
  | zero : Obtainable admits .zero
  | one : Obtainable admits .one
  | default : Obtainable admits Inhabited.default
  | read {text : String} {a : Degree} (hText : admits text) (hRead : parse text = .ok a) :
      Obtainable admits a
  | and {a b : Degree} (ha : Obtainable admits a) (hb : Obtainable admits b) :
      Obtainable admits (a.and b)
  | or {a b : Degree} (ha : Obtainable admits a) (hb : Obtainable admits b) :
      Obtainable admits (a.or b)
  | not {a : Degree} (ha : Obtainable admits a) : Obtainable admits a.not

theorem Defined.not {a : Degree} (ha : a.Defined) : a.not.Defined :=
  isNaN_sub (by decide +kernel) ha

theorem defined_of_parse {text : String} {a : Degree} (h : parse text = .ok a) : a.Defined := by
  obtain ⟨d, -, hDecode⟩ := Json.readWith_eq_ok_iff.mp h
  obtain ⟨x, hNumber, rfl⟩ := Option.map_eq_some_iff.mp hDecode
  cases d with
  | number n => exact Decimal.Numeral.isNaN_approximate? hNumber
  | _ => cases hNumber

section

variable {admits : String → Prop} {a : Degree}

theorem Obtainable.defined (h : Obtainable admits a) : a.Defined := by
  induction h with
  | clamp x => exact (proper_clamp x).defined
  | zero => exact proper_zero.defined
  | one => exact proper_one.defined
  | default => exact proper_zero.defined
  | read hText hRead => exact defined_of_parse hRead
  | and _ _ ha hb => exact ha.and hb
  | or _ _ ha hb => exact ha.or hb
  | not _ ha => exact ha.not

theorem Obtainable.proper (hTexts : ∀ text a, admits text → parse text = .ok a → a.Proper)
    (h : Obtainable admits a) : a.Proper := by
  induction h with
  | clamp x => exact proper_clamp x
  | zero => exact proper_zero
  | one => exact proper_one
  | default => exact proper_zero
  | read hText hRead => exact hTexts _ _ hText hRead
  | and _ _ ha hb => exact ha.and hb
  | or _ _ ha hb => exact ha.or hb
  | not _ ha => exact ha.not

end

/-- Which texts may be read without harm: whatever texts are read, no degree is undefined, and all
degrees lie in the unit interval exactly if those that are read do. -/
theorem unit_of_obtainable_iff (admits : String → Prop) :
    (∀ a, Obtainable admits a → a.value.isNaN = false) ∧
    ((∀ a, Obtainable admits a → 0.0 ≤ a.value ∧ a.value ≤ 1.0) ↔
      ∀ text a, admits text → parse text = .ok a → 0.0 ≤ a.value ∧ a.value ≤ 1.0) := by
  refine ⟨fun a ha => ha.defined, ?_, ?_⟩
  · intro hAll text a hText hRead
    exact hAll a (.read hText hRead)
  · intro hTexts a ha
    have hProper : ∀ text a, admits text → parse text = .ok a → a.Proper := by
      intro text a hText hRead
      exact proper_iff.mpr ⟨defined_of_parse hRead, hTexts text a hText hRead⟩
    exact (proper_iff.mp (ha.proper hProper)).2

/-- Five is read as it stands, and its complement is negative. -/
theorem not_unit_five :
    ∃ a, parse "5" = .ok a ∧ Obtainable (· = "5") a ∧ a.value = 5.0 ∧ ¬ a.value ≤ 1.0 ∧
      Obtainable (· = "5") a.not ∧ a.not.value = -4.0 ∧ ¬ 0.0 ≤ a.not.value := by
  have hRead : (parse "5").toOption.map value = some 5.0 := by decide +kernel
  obtain ⟨a, hSome, hValue⟩ := Option.map_eq_some_iff.mp hRead
  have hOk := toOption_eq_some_iff.mp hSome
  have hObtained : Obtainable (· = "5") a := .read rfl hOk
  have hNot : a.not.value = -4.0 := by
    rw [value_not, hValue]
    decide +kernel
  refine ⟨a, hOk, hObtained, hValue, ?_, hObtained.not, hNot, ?_⟩
  · rw [hValue]
    decide +kernel
  · rw [hNot]
    decide +kernel

end FuzzyControl.Degree
