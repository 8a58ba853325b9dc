import FuzzyControl.Proofs.Evaluation
import FuzzyControl.Proofs.Lookup

/-! # What an evaluation looks at

A condition takes from the variables and the readings the degrees of its statements, and an evaluation
takes from its rules the strengths of their conditions and what they conclude. So all that the readings
tell an evaluation is the value which each statement finds, and a reading under a name that agrees with
none of the variables spoken of might as well not be there.
-/
namespace FuzzyControl

set_option autoImplicit false

theorem Antecedent.evaluate_congr {t u : Table Variable} {readings readings' : Readings}
    {e : Antecedent}
    (h : ∀ a ∈ e.atoms, atomDegree u readings' a = atomDegree t readings a) :
    e.evaluate u readings' = e.evaluate t readings := by
  induction e with
  | is owner term declaredIn => exact h ⟨owner, term⟩ (List.mem_singleton_self _)
  | and l r hl hr =>
    obtain ⟨hLeft, hRight⟩ := List.forall_mem_append.mp h
    rw [evaluate, evaluate, hl hLeft, hr hRight]
  | or l r hl hr =>
    obtain ⟨hLeft, hRight⟩ := List.forall_mem_append.mp h
    rw [evaluate, evaluate, hl hLeft, hr hRight]
  | not e he => rw [evaluate, evaluate, he h]

namespace Controller

section

variable {c d : Controller} {readings readings' : Readings} (hRules : d.rules = c.rules)
  (hEvaluate : ∀ r ∈ c.rules,
    r.antecedent.evaluate d.vars readings' = r.antecedent.evaluate c.vars readings)

include hRules hEvaluate

theorem firingStrengths_congr : d.firingStrengths readings' = c.firingStrengths readings := by
  rw [firingStrengths, firingStrengths, hRules]
  exact mapM_congr hEvaluate

theorem aggregate_congr (hConclude : ∀ r ∈ c.rules, ∀ s, d.conclude r s = c.conclude r s) :
    d.aggregate readings' = c.aggregate readings := by
  have hConclusions : d.conclusions readings' = c.conclusions readings := by
    rw [conclusions, conclusions, hRules]
    congr 1
    apply mapM_congr
    intro r hr
    rw [hEvaluate r hr]
    congr 1
    funext s
    exact hConclude r hr s
  rw [aggregate, aggregate, hConclusions, outputs, outputs, hRules]

end

section

variable {c : Controller} {readings readings' : Readings}

/-- Readings are the same to a controller if its statements find the same values among them. -/
theorem evaluations_eq_of_value?_eq
    (h : ∀ a ∈ c.statements, readings'.value? a.owner = readings.value? a.owner) :
    c.firingStrengths readings' = c.firingStrengths readings ∧
      c.aggregate readings' = c.aggregate readings ∧
      c.defuzzify readings' = c.defuzzify readings := by
  have hEvaluate : ∀ r ∈ c.rules,
      r.antecedent.evaluate c.vars readings' = r.antecedent.evaluate c.vars readings := by
    intro r hr
    apply Antecedent.evaluate_congr
    intro a ha
    rw [Antecedent.atomDegree, Antecedent.atomDegree, h a (List.mem_flatMap.mpr ⟨r, hr, ha⟩)]
  have hAggregate := aggregate_congr rfl hEvaluate fun _ _ _ => rfl
  exact ⟨firingStrengths_congr rfl hEvaluate, hAggregate, by rw [defuzzify, defuzzify, hAggregate]⟩

end

/-- No evaluation of a controller tells readings apart in which its statements find the same values,
whether that is all of them or some of them have none. In particular it does not notice what is added,
changed or taken away under names that agree in lower case with no variable its statements are about,
be it a variable of its own or an output. -/
theorem unaffected_by_other_readings (c : Controller) (readings readings' : Readings) :
    ((∀ a ∈ c.statements, readings'.value? a.owner = readings.value? a.owner) →
      c.firingStrengths readings' = c.firingStrengths readings ∧
        c.aggregate readings' = c.aggregate readings ∧
        c.defuzzify readings' = c.defuzzify readings) ∧
    (readings.Distinct → readings'.Distinct →
      (∀ r, (∃ a ∈ c.statements, Text.lowerCase r.1 = Text.lowerCase a.owner) →
        (r ∈ readings' ↔ r ∈ readings)) →
      c.firingStrengths readings' = c.firingStrengths readings ∧
        c.aggregate readings' = c.aggregate readings ∧
        c.defuzzify readings' = c.defuzzify readings) := by
  refine ⟨evaluations_eq_of_value?_eq, ?_⟩
  intro h h' hSame
  apply evaluations_eq_of_value?_eq
  intro a ha
  exact h.value?_congr h' fun r hr => hSame r ⟨a, ha, hr⟩

/-- The water heater does not look at a reading for its output or for a fan it does not have, nor at how
the name of the water is written. -/
theorem unaffected_waterHeater :
    Readings.Distinct [("water", 38.0)] ∧
    Readings.Distinct [("Power", 7.0), ("water", 38.0), ("Fan", 1.0)] ∧
    (WaterHeater.controller .initial).defuzzify
        [("Power", 7.0), ("water", 38.0), ("Fan", 1.0)] =
      (WaterHeater.controller .initial).defuzzify [("water", 38.0)] ∧
    (WaterHeater.controller .initial).defuzzify [("Water", 38.0)] =
      (WaterHeater.controller .initial).defuzzify [("water", 38.0)] := by
  have hWater : ∀ a ∈ (WaterHeater.controller .initial).statements, a.owner = "Water" := by decide
  have hOne : Readings.Distinct [("water", 38.0)] := List.nodup_singleton _
  have hThree : Readings.Distinct [("Power", 7.0), ("water", 38.0), ("Fan", 1.0)] := by
    simp [Readings.Distinct]
  obtain ⟨-, hOther⟩ := unaffected_by_other_readings (WaterHeater.controller .initial)
    [("water", 38.0)] [("Power", 7.0), ("water", 38.0), ("Fan", 1.0)]
  obtain ⟨hSame, -⟩ := unaffected_by_other_readings (WaterHeater.controller .initial)
    [("water", 38.0)] [("Water", 38.0)]
  refine ⟨hOne, hThree, (hOther hOne hThree ?_).2.2, (hSame ?_).2.2⟩
  · rintro ⟨name, x⟩ ⟨a, ha, hAlike⟩
    replace hAlike : Text.lowerCase name = Text.lowerCase "Water" := hWater a ha ▸ hAlike
    have hPower : name ≠ "Power" := by
      rintro rfl
      exact absurd hAlike (by decide)
    have hFan : name ≠ "Fan" := by
      rintro rfl
      exact absurd hAlike (by decide)
    simp [hPower, hFan]
  · intro a ha
    rw [hWater a ha]
    rfl

end Controller

end FuzzyControl
