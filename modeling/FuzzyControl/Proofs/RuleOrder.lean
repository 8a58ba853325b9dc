import FuzzyControl.Proofs.Applicability
import FuzzyControl.Proofs.Composition
import FuzzyControl.Proofs.OtherRules

/-! # The order of the rules

Rules in another order can be evaluated for the same readings and give sets of the same outputs, which
agree except that their contributions may come in another order. So they have the same degree
everywhere, and the same outputs have no rule that applies.
-/
namespace FuzzyControl

set_option autoImplicit false

/-- The two are sets of one output, with the same contributions in an order of their own. -/
structure OutputSet.Agrees (s t : OutputSet) : Prop where
  output : t.output = s.output
  contributions : t.contributions.Perm s.contributions
  membership : ∀ y, (t.membership y == s.membership y) = true

theorem OutputSet.measure_membership_of_perm {s t : OutputSet}
    (hProper : ∀ k ∈ s.contributions, k.strength.Proper)
    (hPerm : t.contributions.Perm s.contributions) (y : Float) :
    (t.membership y).measure = (s.membership y).measure := by
  have hOther : ∀ k ∈ t.contributions, k.strength.Proper := fun k hk =>
    hProper k (hPerm.mem_iff.mp hk)
  apply eq_of_forall_ge_iff
  intro bound
  rw [OutputSet.measure_membership_le_iff hOther, OutputSet.measure_membership_le_iff hProper]
  simp only [hPerm.mem_iff]

theorem OutputSet.agrees_of_perm {s t : OutputSet}
    (hProper : ∀ k ∈ s.contributions, k.strength.Proper) (hOutput : t.output = s.output)
    (hPerm : t.contributions.Perm s.contributions) : s.Agrees t := by
  refine ⟨hOutput, hPerm, ?_⟩
  intro y
  have hs : (s.membership y).Proper :=
    OutputSet.proper_membership fun k hk => (hProper k hk).degreeAt y
  have ht : (t.membership y).Proper :=
    OutputSet.proper_membership fun k hk => (hProper k (hPerm.mem_iff.mp hk)).degreeAt y
  rw [ht.defined.beq_iff hs.defined]
  exact OutputSet.measure_membership_of_perm hProper hPerm y

theorem OutputSet.Counted.total_le_zero_iff {shapes : String → Shape} {s : OutputSet}
    (h : OutputSet.Counted shapes s.contributions) : s.total ≤ 0.0 ↔ s.contributions = [] :=
  OutputSet.total_le_zero_iff (fun k hk => (h.proper k hk).defined) fun k hk =>
    (h.proper k hk).defined.isPositive_iff.mpr (h.positive k hk)

theorem OutputSet.Counted.defuzzify_eq_error_iff {shapes : String → Shape} {s : OutputSet}
    (h : OutputSet.Counted shapes s.contributions) (strategy : Strategy) :
    s.defuzzify strategy = .error (.noApplicableRule s.output) ↔ s.contributions = [] :=
  (OutputSet.defuzzify_eq_error_iff (fun k hk => (h.proper k hk).defined) fun k hk =>
    (h.proper k hk).defined.isPositive_iff.mpr (h.positive k hk)).trans (and_iff_right rfl)

namespace Controller

section

variable {c : Controller} {rules : List Rule} (hPerm : rules.Perm c.rules) {readings : Readings}

include hPerm

theorem outputs_withRules_of_perm : (c.withRules rules).outputs = c.outputs := by
  apply outputs_eq_of_mem_iff
  intro output
  simp only [mem_outputs_iff, rules_withRules, hPerm.mem_iff]

theorem unread?_withRules_of_perm (readings : Readings) :
    (c.withRules rules).unread? readings = none ↔ c.unread? readings = none := by
  simp only [unread?_eq_none_iff, rules_withRules, hPerm.mem_iff]

theorem collected_withRules_of_perm (readings : Readings) (output : String) :
    ((c.withRules rules).collected readings output).Perm (c.collected readings output) :=
  hPerm.flatMap_right _

theorem Reachable.withRules_of_perm (hc : c.Reachable) : (c.withRules rules).Reachable :=
  hc.withRules fun r hr => hc.validate r (hPerm.mem_iff.mp hr)

theorem contributions_withRules_of_perm (hc : c.Reachable) (h : c.unread? readings = none)
    (output : String) :
    ((c.withRules rules).collectedSet readings output).contributions.Perm
      (c.collectedSet readings output).contributions := by
  have hOther := (hc.withRules_of_perm hPerm).wellFormed
  have hRead := (unread?_withRules_of_perm hPerm readings).mpr h
  have hCollected := collected_withRules_of_perm hPerm readings output
  exact (hOther.merged_collected hRead output).perm (hc.wellFormed.merged_collected h output)
    (hOther.counted hRead output) (hc.wellFormed.counted h output)
    (OutputSet.outweighs_of_subset hCollected.symm.subset)
    (OutputSet.outweighs_of_subset hCollected.subset)

end

/-- Whatever operations built a controller, and for any order of its rules: the evaluation succeeds or
fails as before, and if it succeeds then for the same outputs, with sets that agree and the same outputs
without a rule that applies. -/
theorem permuted_of_reachable {c : Controller} (hc : c.Reachable) {rules : List Rule}
    (hPerm : rules.Perm c.rules) (readings : Readings) :
    (c.withRules rules).Reachable ∧ (c.withRules rules).outputs = c.outputs ∧
    ((∃ sets, (c.withRules rules).aggregate readings = .ok sets) ↔
      ∃ sets, c.aggregate readings = .ok sets) ∧
    ((∃ entries, (c.withRules rules).defuzzify readings = .ok entries) ↔
      ∃ entries, c.defuzzify readings = .ok entries) ∧
    (∀ sets sets', c.aggregate readings = .ok sets →
      (c.withRules rules).aggregate readings = .ok sets' →
      sets.map OutputSet.output = c.outputs ∧ List.Forall₂ OutputSet.Agrees sets sets') ∧
    (∀ entries entries', c.defuzzify readings = .ok entries →
      (c.withRules rules).defuzzify readings = .ok entries' →
      entries.map Prod.fst = c.outputs ∧
      List.Forall₂ (fun e e' => e'.1 = e.1 ∧
        (e'.2 = .error (.noApplicableRule e.1) ↔ e.2 = .error (.noApplicableRule e.1)))
        entries entries') := by
  have hOther := hc.withRules_of_perm hPerm
  have hOutputs := outputs_withRules_of_perm hPerm
  have hRead := unread?_withRules_of_perm hPerm readings
  refine ⟨hOther, hOutputs, ?_, ?_, ?_, ?_⟩
  · rw [exists_aggregate_iff hOther.wellFormed, exists_aggregate_iff hc.wellFormed, hRead]
  · rw [exists_defuzzify_iff hOther.wellFormed, exists_defuzzify_iff hc.wellFormed, hRead]
  · intro sets sets' hSets hSets'
    obtain ⟨h, rfl⟩ := (aggregate_eq_ok_iff_collected hc.wellFormed).mp hSets
    obtain ⟨-, rfl⟩ := (aggregate_eq_ok_iff_collected hOther.wellFormed).mp hSets'
    rw [hOutputs, List.forall₂_map_left_iff, List.forall₂_map_right_iff, List.forall₂_same,
      List.map_map]
    refine ⟨List.map_id _, ?_⟩
    intro output _
    exact OutputSet.agrees_of_perm (hc.wellFormed.counted_collectedSet h output).proper rfl
      (contributions_withRules_of_perm hPerm hc h output)
  · intro entries entries' hEntries hEntries'
    obtain ⟨h, rfl⟩ := (defuzzify_eq_ok_iff_collected hc.wellFormed).mp hEntries
    obtain ⟨h', rfl⟩ := (defuzzify_eq_ok_iff_collected hOther.wellFormed).mp hEntries'
    rw [hOutputs, List.forall₂_map_left_iff, List.forall₂_map_right_iff, List.forall₂_same,
      List.map_map]
    refine ⟨List.map_id _, ?_⟩
    intro output _
    have hSame := contributions_withRules_of_perm hPerm hc h output
    have hEmpty : ((c.withRules rules).collectedSet readings output).contributions = [] ↔
        (c.collectedSet readings output).contributions = [] := by
      rw [← List.length_eq_zero_iff, hSame.length_eq, List.length_eq_zero_iff]
    have hOld := (hc.wellFormed.counted_collectedSet h output).defuzzify_eq_error_iff
      (c.settings.strategyFor output)
    have hNew := (hOther.wellFormed.counted_collectedSet h' output).defuzzify_eq_error_iff
      (c.settings.strategyFor output)
    exact ⟨rfl, hNew.trans (hEmpty.trans hOld.symm)⟩

theorem map_term_waterHeater :
    ((WaterHeater.controller .initial).aggregate (WaterHeater.readings 65.0)).toOption.map
      (List.map fun s => s.contributions.map Contribution.term) = some [["High", "Low"]] := by
  decide +kernel

theorem map_term_waterHeater_reverse :
    (((WaterHeater.controller .initial).withRules WaterHeater.rules.reverse).aggregate
      (WaterHeater.readings 65.0)).toOption.map
      (List.map fun s => s.contributions.map Contribution.term) = some [["Low", "High"]] := by
  decide +kernel

/-- The water heater with its rules exchanged, at a temperature at which both fire. -/
theorem permuted_waterHeater :
    (WaterHeater.controller .initial).Reachable ∧
    WaterHeater.rules.reverse.Perm (WaterHeater.controller .initial).rules ∧
    ∃ sets sets',
      (WaterHeater.controller .initial).aggregate (WaterHeater.readings 65.0) = .ok sets ∧
      ((WaterHeater.controller .initial).withRules WaterHeater.rules.reverse).aggregate
        (WaterHeater.readings 65.0) = .ok sets' ∧
      sets.map (fun s => s.contributions.map Contribution.term) = [["High", "Low"]] ∧
      sets'.map (fun s => s.contributions.map Contribution.term) = [["Low", "High"]] ∧
      List.Forall₂ OutputSet.Agrees sets sets' := by
  have hReachable := WaterHeater.reachable .initial
  have hPerm : WaterHeater.rules.reverse.Perm (WaterHeater.controller .initial).rules :=
    List.reverse_perm _
  obtain ⟨-, -, -, -, hSets, -⟩ :=
    permuted_of_reachable hReachable hPerm (WaterHeater.readings 65.0)
  obtain ⟨sets, hSome, hFirst⟩ := Option.map_eq_some_iff.mp map_term_waterHeater
  obtain ⟨sets', hSome', hFirst'⟩ := Option.map_eq_some_iff.mp map_term_waterHeater_reverse
  have hOk := toOption_eq_some_iff.mp hSome
  have hOk' := toOption_eq_some_iff.mp hSome'
  exact ⟨hReachable, hPerm, sets, sets', hOk, hOk', hFirst, hFirst', (hSets _ _ hOk hOk').2⟩

end Controller

end FuzzyControl
