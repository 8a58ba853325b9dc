import FuzzyControl.Proofs.Composition
import FuzzyControl.Proofs.OtherRules
import FuzzyControl.Proofs.Relevance

/-! # Growing a controller

An evaluation looks up only variables that the rules name. They are there already, so that one more
variable changes no evaluation. One more rule gives to its outputs after all the other rules have given:
the outputs that it does not conclude on are given the same as before, and the others no less of any
term, so that no degree in their sets is lower.
-/
namespace FuzzyControl

set_option autoImplicit false

/-- A set whose contributions are all outweighed, in the same shapes, has no greater degree anywhere. -/
theorem OutputSet.measure_membership_le {s t : OutputSet}
    (hs : ∀ k ∈ s.contributions, k.strength.Proper) (ht : ∀ k ∈ t.contributions, k.strength.Proper)
    (h : ∀ k ∈ s.contributions, ∃ j ∈ t.contributions,
      j.shape = k.shape ∧ k.strength.measure ≤ j.strength.measure) (y : Float) :
    (s.membership y).measure ≤ (t.membership y).measure := by
  obtain ⟨hNonneg, hAll⟩ := (measure_membership_le_iff ht y).mp le_rfl
  rw [measure_membership_le_iff hs]
  refine ⟨hNonneg, ?_⟩
  intro k hk
  obtain ⟨j, hj, hShape, hLe⟩ := h k hk
  rw [← hShape]
  exact (min_le_min_right _ hLe).trans (hAll j hj)

namespace Controller

variable {c d : Controller} {r : Rule} {readings : Readings} {output : String}

theorem WellFormed.proper_membership (hc : c.WellFormed) (hRead : c.unread? readings = none)
    (output : String) (y : Float) : ((c.collectedSet readings output).membership y).Proper :=
  OutputSet.proper_membership fun k hk =>
    ((hc.counted_collectedSet hRead output).proper k hk).degreeAt y

section

variable {v : Variable} (h : c.addVariable v = .ok d)

include h

theorem rules_addVariable : d.rules = c.rules := by
  rw [(addVariable_eq_ok_iff.mp h).2]

theorem settings_addVariable : d.settings = c.settings := by
  rw [(addVariable_eq_ok_iff.mp h).2]

theorem Declares.find?_addVariable {ref : TermRef} (hRef : c.Declares ref) :
    d.vars.find? ref.owner = c.vars.find? ref.owner := by
  obtain ⟨shape, hShape⟩ := hRef
  obtain ⟨w, hFind, -⟩ := resolve_eq_ok_iff.mp hShape
  rw [hFind, Controller.find?_addVariable h hFind]

variable (hc : c.WellFormed)

include hc

theorem WellFormed.evaluate_addVariable (hr : r ∈ c.rules) (readings : Readings) :
    r.antecedent.evaluate d.vars readings = r.antecedent.evaluate c.vars readings := by
  apply Antecedent.evaluate_congr
  intro a ha
  rw [Antecedent.atomDegree, Antecedent.atomDegree,
    (hc.declared r hr a (List.mem_append_left _ ha)).find?_addVariable h]

theorem WellFormed.conclude_addVariable (hr : r ∈ c.rules) (s : Degree) :
    d.conclude r s = c.conclude r s := by
  have hEach : ∀ ref ∈ r.consequents, d.resolve ref = c.resolve ref := by
    intro ref hRef
    rw [resolve, resolve, (hc.declared r hr ref (List.mem_append_right _ hRef)).find?_addVariable h]
  rw [conclude, conclude]
  split_ifs
  · apply mapM_congr
    intro ref hRef
    rw [hEach ref hRef]
  · rfl

theorem WellFormed.firingStrengths_addVariable (readings : Readings) :
    d.firingStrengths readings = c.firingStrengths readings :=
  firingStrengths_congr (rules_addVariable h) fun _ hr => hc.evaluate_addVariable h hr readings

theorem WellFormed.aggregate_addVariable (readings : Readings) :
    d.aggregate readings = c.aggregate readings :=
  aggregate_congr (rules_addVariable h) (fun _ hr => hc.evaluate_addVariable h hr readings)
    fun _ hr => hc.conclude_addVariable h hr

theorem WellFormed.defuzzify_addVariable (readings : Readings) :
    d.defuzzify readings = c.defuzzify readings := by
  rw [defuzzify, defuzzify, hc.aggregate_addVariable h, settings_addVariable h]

end

section

variable (h : c.addRule r = .ok d)

include h

theorem eq_withRules_of_addRule : d = c.withRules (c.rules ++ [r]) := (addRule_eq_ok_iff.mp h).2

theorem mem_outputs_addRule_iff :
    output ∈ d.outputs ↔ output ∈ c.outputs ∨ output ∈ r.consequents.map TermRef.owner := by
  rw [eq_withRules_of_addRule h, mem_outputs_iff, mem_outputs_iff, rules_withRules, List.mem_map]
  simp only [List.mem_append, List.mem_singleton, or_and_right, exists_or, exists_eq_left]

theorem unread?_of_addRule (hRead : d.unread? readings = none) : c.unread? readings = none := by
  rw [eq_withRules_of_addRule h, unread?_eq_none_iff, rules_withRules] at hRead
  exact unread?_eq_none_iff.mpr fun q hq => hRead q (List.mem_append_left _ hq)

theorem WellFormed.firingStrengths_addRule (hc : c.WellFormed) {strengths : List Degree}
    (hStrengths : d.firingStrengths readings = .ok strengths) :
    ∃ before s, c.firingStrengths readings = .ok before ∧ strengths = before ++ [s] := by
  have hd := hc.addRule h
  have hRead : d.unread? readings = none := by
    rw [← Option.map_eq_none_iff (f := fun a => Fault.noReading a.owner),
      ← hd.fault?_firingStrengths, hStrengths]
    rfl
  rw [hd.firingStrengths_eq hRead, eq_withRules_of_addRule h, rules_withRules,
    List.map_append] at hStrengths
  exact ⟨_, _, hc.firingStrengths_eq (unread?_of_addRule h hRead), (Except.ok.inj hStrengths).symm⟩

theorem collected_addRule (readings : Readings) (output : String) :
    d.collected readings output =
      c.collected readings output ++ c.given readings output r := by
  rw [eq_withRules_of_addRule h, collected, rules_withRules, List.flatMap_append,
    List.flatMap_singleton]
  rfl

theorem collectedSet_addRule_of_notMem (hOutput : output ∉ r.consequents.map TermRef.owner) :
    d.collectedSet readings output = c.collectedSet readings output := by
  have hNone : c.given readings output r = [] := by
    rw [List.eq_nil_iff_forall_not_mem]
    intro k hk
    obtain ⟨-, ref, hRef, rfl, -⟩ := mem_given_iff.mp hk
    exact hOutput (List.mem_map_of_mem hRef)
  rw [collectedSet, collected_addRule h, hNone, List.append_nil, collectedSet]

/-- The shapes are those of before, and of each term there is at least as much. -/
theorem WellFormed.measure_membership_le_addRule (hc : c.WellFormed)
    (hRead : d.unread? readings = none) (output : String) (y : Float) :
    ((c.collectedSet readings output).membership y).measure ≤
      ((d.collectedSet readings output).membership y).measure := by
  have hRead' := unread?_of_addRule h hRead
  have hMore : c.collected readings output ⊆ d.collected readings output := by
    rw [collected_addRule h]
    exact List.subset_append_left _ _
  have hd := hc.addRule h
  have hOld := hc.merged_collected hRead' output
  have hNew := hd.merged_collected hRead output
  have hOldCounted := hc.counted_collectedSet hRead' output
  have hNewCounted := hd.counted_collectedSet hRead output
  apply OutputSet.measure_membership_le hOldCounted.proper hNewCounted.proper
  intro k hk
  obtain ⟨i, hi, hTerm, -⟩ := hOld.attained k hk
  obtain ⟨j, hj, hSame⟩ := hNew.exists_of_mem (hMore hi)
  have hAlike : k.term = j.term := hTerm.symm.trans hSame.symm
  refine ⟨j, hj, ?_, hOld.measure_le hNew (OutputSet.outweighs_of_subset hMore) hk hj hAlike⟩
  rw [hNewCounted.shape j hj, hOldCounted.shape k hk, hAlike, eq_withRules_of_addRule h]
  rfl

/-- Where each output has an entry of its own, the entries of the outputs that the rule does not
conclude on are those of before. -/
theorem mem_map_outputs_addRule_iff {β : Type} {f g : String → β} (key : β → String)
    (hf : ∀ output, key (f output) = output) (hg : ∀ output, key (g output) = output)
    (hSame : ∀ output, output ∉ r.consequents.map TermRef.owner → f output = g output) {b : β}
    (hb : key b ∉ r.consequents.map TermRef.owner) :
    b ∈ d.outputs.map f ↔ b ∈ c.outputs.map g := by
  rw [List.mem_map, List.mem_map]
  constructor
  · rintro ⟨output, hMem, rfl⟩
    rw [hf] at hb
    exact ⟨output, ((mem_outputs_addRule_iff h).mp hMem).resolve_right hb, (hSame output hb).symm⟩
  · rintro ⟨output, hMem, rfl⟩
    rw [hg] at hb
    exact ⟨output, (mem_outputs_addRule_iff h).mpr (.inl hMem), hSame output hb⟩

theorem WellFormed.aggregate_addRule (hc : c.WellFormed) {sets' : List OutputSet}
    (hSets' : d.aggregate readings = .ok sets') :
    ∃ sets, c.aggregate readings = .ok sets ∧
      (∀ s, s.output ∉ r.consequents.map TermRef.owner → (s ∈ sets' ↔ s ∈ sets)) ∧
      ∀ s ∈ sets, (∃ s' ∈ sets', s'.output = s.output) ∧
        ∀ s' ∈ sets', s'.output = s.output →
          ∀ y, (s.membership y).value ≤ (s'.membership y).value := by
  have hd := hc.addRule h
  obtain ⟨hRead, rfl⟩ := (aggregate_eq_ok_iff_collected hd).mp hSets'
  have hRead' := unread?_of_addRule h hRead
  refine ⟨_, (aggregate_eq_ok_iff_collected hc).mpr ⟨hRead', rfl⟩, ?_, ?_⟩
  · intro s hOutput
    exact mem_map_outputs_addRule_iff h OutputSet.output (fun _ => rfl) (fun _ => rfl)
      (fun _ => collectedSet_addRule_of_notMem h) hOutput
  · intro s hs
    obtain ⟨output, hMem, rfl⟩ := List.mem_map.mp hs
    refine ⟨⟨_, List.mem_map_of_mem ((mem_outputs_addRule_iff h).mpr (.inl hMem)), rfl⟩, ?_⟩
    intro s' hs' hSame y
    obtain ⟨output', -, rfl⟩ := List.mem_map.mp hs'
    obtain rfl : output' = output := hSame
    have hOld := hc.proper_membership hRead' output' y
    have hNew := hd.proper_membership hRead output' y
    exact (hOld.defined.le_iff hNew.defined).mpr
      (hc.measure_membership_le_addRule h hRead output' y)

theorem WellFormed.defuzzify_addRule (hc : c.WellFormed)
    {entries' : List (String × Except Fault Float)} (hEntries' : d.defuzzify readings = .ok entries') :
    ∃ entries, c.defuzzify readings = .ok entries ∧
      ∀ e, e.1 ∉ r.consequents.map TermRef.owner → (e ∈ entries' ↔ e ∈ entries) := by
  obtain ⟨hRead, rfl⟩ := (defuzzify_eq_ok_iff_collected (hc.addRule h)).mp hEntries'
  have hSettings : d.settings = c.settings := by rw [eq_withRules_of_addRule h, settings_withRules]
  refine ⟨_, (defuzzify_eq_ok_iff_collected hc).mpr ⟨unread?_of_addRule h hRead, rfl⟩, ?_⟩
  intro e hOutput
  apply mem_map_outputs_addRule_iff h Prod.fst (fun _ => rfl) (fun _ => rfl) _ hOutput
  intro output hOther
  rw [collectedSet_addRule_of_notMem h hOther, hSettings]

end

/-- Whatever operations built a controller: after one more variable every evaluation has the outcome it
had before. After one more rule, whatever can be evaluated could be evaluated before, outputs that the
rule does not conclude on have the same sets and numbers, and no output had a greater degree of any
number. -/
theorem extension_of_reachable {c : Controller} (hc : c.Reachable) :
    (∀ v d, c.addVariable v = .ok d → ∀ readings,
      d.firingStrengths readings = c.firingStrengths readings ∧
      d.aggregate readings = c.aggregate readings ∧
      d.defuzzify readings = c.defuzzify readings) ∧
    (∀ r d, c.addRule r = .ok d → ∀ readings,
      (∀ strengths', d.firingStrengths readings = .ok strengths' →
        ∃ strengths s, c.firingStrengths readings = .ok strengths ∧ strengths' = strengths ++ [s]) ∧
      (∀ sets', d.aggregate readings = .ok sets' →
        ∃ sets, c.aggregate readings = .ok sets ∧
          (∀ s, s.output ∉ r.consequents.map TermRef.owner → (s ∈ sets' ↔ s ∈ sets)) ∧
          ∀ s ∈ sets, (∃ s' ∈ sets', s'.output = s.output) ∧
            ∀ s' ∈ sets', s'.output = s.output →
              ∀ y, (s.membership y).value ≤ (s'.membership y).value) ∧
      (∀ entries', d.defuzzify readings = .ok entries' →
        ∃ entries, c.defuzzify readings = .ok entries ∧
          ∀ e, e.1 ∉ r.consequents.map TermRef.owner → (e ∈ entries' ↔ e ∈ entries))) := by
  have hWell := hc.wellFormed
  constructor
  · intro v d h readings
    exact ⟨hWell.firingStrengths_addVariable h readings, hWell.aggregate_addVariable h readings,
      hWell.defuzzify_addVariable h readings⟩
  · intro r d h readings
    exact ⟨fun _ => hWell.firingStrengths_addRule h, fun _ => hWell.aggregate_addRule h,
      fun _ => hWell.defuzzify_addRule h⟩

end Controller

namespace WaterHeater

def withFan : Controller := (controller .initial).enter [fan]

end WaterHeater

/-- The water heater is given a fan and then a rule for it, which leaves the power as it was. -/
theorem Controller.extension_waterHeater :
    (WaterHeater.controller .initial).Reachable ∧ WaterHeater.withFan.Reachable ∧
    (WaterHeater.controller .initial).addVariable WaterHeater.fan = .ok WaterHeater.withFan ∧
    WaterHeater.withFan.addRule WaterHeater.ventilation = .ok WaterHeater.ventilated ∧
    (∀ readings,
      WaterHeater.withFan.defuzzify readings =
        (WaterHeater.controller .initial).defuzzify readings) ∧
    ∃ sets sets', WaterHeater.withFan.aggregate (WaterHeater.readings 38.0) = .ok sets ∧
      WaterHeater.ventilated.aggregate (WaterHeater.readings 38.0) = .ok sets' ∧
      sets'.map OutputSet.output = ["Fan", "Power"] ∧
      ∀ s, s.output = "Power" → (s ∈ sets' ↔ s ∈ sets) := by
  have hFan : (WaterHeater.controller .initial).addVariable WaterHeater.fan =
      .ok WaterHeater.withFan := rfl
  have hRule : WaterHeater.withFan.addRule WaterHeater.ventilation = .ok WaterHeater.ventilated :=
    rfl
  have hReachable := WaterHeater.reachable .initial
  have hWithFan : WaterHeater.withFan.Reachable :=
    ⟨.initial, [.addVariables [WaterHeater.water, WaterHeater.power], .addRules WaterHeater.rules,
      .addVariable WaterHeater.fan], rfl⟩
  obtain ⟨hVariable, -⟩ := extension_of_reachable hReachable
  obtain ⟨-, hMore⟩ := extension_of_reachable hWithFan
  obtain ⟨-, hSets, -⟩ := hMore _ _ hRule (WaterHeater.readings 38.0)
  have hOutputs : (WaterHeater.ventilated.aggregate (WaterHeater.readings 38.0)).toOption.map
      (List.map OutputSet.output) = some ["Fan", "Power"] := by decide +kernel
  obtain ⟨sets', hSome, hNames⟩ := Option.map_eq_some_iff.mp hOutputs
  have hOk := toOption_eq_some_iff.mp hSome
  obtain ⟨sets, hOld, hSame, -⟩ := hSets sets' hOk
  refine ⟨hReachable, hWithFan, hFan, hRule, ?_, sets, sets', hOld, hOk, hNames, ?_⟩
  · exact fun readings => (hVariable _ _ hFan readings).2.2
  · intro s hOutput
    apply hSame
    rw [hOutput]
    decide

end FuzzyControl
