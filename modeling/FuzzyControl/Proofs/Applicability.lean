import FuzzyControl.Proofs.Aggregation
import FuzzyControl.Proofs.Binary64.Quotients

/-! # An output has no number exactly if no rule for it fires

The number of an output is a quotient by the sum of the strengths in its set, and the output is reported
instead if this sum is not positive. The sum is one of doubles, but rounding never brings a sum below
one of its terms (`denotes_foldl_add`): it is positive as soon as one strength is, and so the report
says that all rules which conclude on the output have strength zero. Each output is judged by its own
set.
-/
namespace FuzzyControl

open Binary64

set_option autoImplicit false

theorem denotes_foldl_add {xs : List Float} (hxs : ∀ x ∈ xs, x.isNaN = false ∧ 0 ≤ value x)
    {start : Float} {v : EReal} (hStart : Denotes start v) (hv : 0 ≤ v) :
    ∃ w, Denotes (xs.foldl (· + ·) start) w ∧ v ≤ w ∧ ∀ x ∈ xs, value x ≤ w := by
  induction xs generalizing start v with
  | nil =>
    refine ⟨v, hStart, le_rfl, ?_⟩
    intro x hx
    cases hx
  | cons x xs ih =>
    obtain ⟨hNaN, hNonneg⟩ := hxs x List.mem_cons_self
    obtain ⟨u, hu, hvu, hxu⟩ := hStart.le_add hv (denotes_value hNaN) hNonneg
    obtain ⟨w, hw, huw, hAll⟩ := ih (fun y hy => hxs y (List.mem_cons_of_mem _ hy)) hu (hv.trans hvu)
    exact ⟨w, hw, hvu.trans huw, List.forall_mem_cons.mpr ⟨hxu.trans huw, hAll⟩⟩

namespace OutputSet

section

variable {s : OutputSet} (hDefined : ∀ k ∈ s.contributions, k.strength.Defined)
  (hPositive : ∀ k ∈ s.contributions, k.strength.isPositive = true)

include hDefined hPositive

/-- The sum of strengths that count is a number that none of them exceeds. -/
theorem denotes_total :
    ∃ w, Denotes s.total w ∧ 0 ≤ w ∧ ∀ k ∈ s.contributions, k.strength.measure ≤ w := by
  have hTerms : ∀ x ∈ s.contributions.map fun k => k.strength.value,
      x.isNaN = false ∧ 0 ≤ value x := by
    intro x hx
    obtain ⟨k, hk, rfl⟩ := List.mem_map.mp hx
    exact ⟨hDefined k hk, ((hDefined k hk).isPositive_iff.mp (hPositive k hk)).le⟩
  have hStart : Denotes (-0.0) 0 := ⟨rfl, value_negZero⟩
  obtain ⟨w, hw, hNonneg, hAll⟩ := denotes_foldl_add hTerms hStart le_rfl
  exact ⟨w, hw, hNonneg, fun k hk => hAll _ (List.mem_map_of_mem hk)⟩

theorem total_pos_iff : 0.0 < s.total ↔ s.contributions ≠ [] := by
  obtain ⟨w, hw, -, hAll⟩ := denotes_total hDefined hPositive
  rw [denotes_zero.lt_iff hw]
  constructor
  · intro hPos hNil
    have hEmpty : s.total = -0.0 := by rw [total, hNil]; rfl
    rw [← hw.value, hEmpty, value_negZero] at hPos
    exact absurd hPos (lt_irrefl _)
  · intro hSome
    obtain ⟨k, hk⟩ := List.exists_mem_of_ne_nil _ hSome
    exact ((hDefined k hk).isPositive_iff.mp (hPositive k hk)).trans_le (hAll k hk)

theorem total_le_zero_iff : s.total ≤ 0.0 ↔ s.contributions = [] := by
  obtain ⟨w, hw, -, -⟩ := denotes_total hDefined hPositive
  rw [← not_iff_not, ← ne_eq, ← total_pos_iff hDefined hPositive, hw.le_iff denotes_zero,
    denotes_zero.lt_iff hw, not_le]

/-- The only way in which a set has no number is to be empty. -/
theorem defuzzify_eq_error_iff {strategy : Strategy} {f : Fault} :
    s.defuzzify strategy = .error f ↔
      f = .noApplicableRule s.output ∧ s.contributions = [] := by
  rw [defuzzify, ← total_le_zero_iff hDefined hPositive]
  split_ifs with hTotal
  · simp only [Except.error.injEq, eq_comm, hTotal, and_true]
  · refine iff_of_false ?_ fun h => hTotal h.2
    rintro ⟨⟩

end

end OutputSet

namespace Controller

/-- All rules that conclude on the output have strength zero. -/
def Silent (c : Controller) (strengths : List Degree) (output : String) : Prop :=
  ∀ p ∈ c.rules.zip strengths, (∃ ref ∈ p.1.consequents, ref.owner = output) →
    (p.2 == Degree.zero) = true

section

variable {c : Controller} {readings : Readings} {strengths : List Degree}
  (h : c.firingStrengths readings = .ok strengths) (output : String)

include h

theorem silent_iff : c.Silent strengths output ↔ c.received strengths output = [] := by
  have hZero : ∀ p ∈ c.rules.zip strengths, (p.2 == Degree.zero) = true ↔ ¬ 0.0 < p.2.value := by
    intro p hp
    have hProper := proper_of_mem_zip h hp
    rw [hProper.defined.beq_iff Degree.proper_zero.defined, Degree.measure_zero,
      ← hProper.isPositive_eq_false_iff, ← Degree.isPositive_iff, Bool.not_eq_true]
  rw [List.eq_nil_iff_forall_not_mem]
  constructor
  · intro hSilent k hk
    obtain ⟨p, hp, hPositive, hRef, -, -⟩ := mem_received_iff.mp hk
    exact (hZero p hp).mp (hSilent p hp ⟨_, hRef, rfl⟩) hPositive
  · rintro hNone p hp ⟨⟨owner, term⟩, hRef, rfl⟩
    rw [hZero p hp]
    intro hPositive
    exact hNone _ (mem_received_of_fires hp hPositive hRef)

theorem total_setOf_le_zero_iff :
    (c.setOf strengths output).total ≤ 0.0 ↔ c.Silent strengths output := by
  have hMerged := merged_received h output
  rw [silent_iff h, ← hMerged.eq_nil_iff]
  apply OutputSet.total_le_zero_iff fun d hd => (proper_of_mem_setOf h hd).defined
  intro d hd
  obtain ⟨p, -, hPositive, -, hOwn⟩ := fires_of_mem_setOf h hd
  rwa [← hOwn, Degree.isPositive_iff]

theorem defuzzify_of_silent {output : String} (hSilent : c.Silent strengths output)
    (strategy : Strategy) :
    (c.setOf strengths output).defuzzify strategy = .error (.noApplicableRule output) :=
  if_pos ((total_setOf_le_zero_iff h output).mpr hSilent)

theorem defuzzify_of_not_silent {output : String} (hFires : ¬ c.Silent strengths output)
    (strategy : Strategy) :
    (c.setOf strengths output).defuzzify strategy =
      .ok ((c.setOf strengths output).moment strategy / (c.setOf strengths output).total) :=
  if_neg (mt (total_setOf_le_zero_iff h output).mp hFires)

end

theorem WellFormed.defuzzify_eq {c : Controller} (hc : c.WellFormed) {readings : Readings}
    {strengths : List Degree} (h : c.firingStrengths readings = .ok strengths) :
    c.defuzzify readings = .ok (c.outputs.map fun output =>
      (output, (c.setOf strengths output).defuzzify (c.settings.strategyFor output))) := by
  rw [defuzzify_eq_ok_iff]
  refine ⟨_, hc.conclusions_eq h, ?_⟩
  simp only [gather_eq]

/-- Whatever operations built a controller, and once its rules can be evaluated: each output has an
entry, which is what the output's own set gives under the output's own strategy, whatever the other
entries are. It is an error exactly if all rules for the output have strength zero, and otherwise a
quotient of two sums over the set. -/
theorem entries_of_reachable {c : Controller} (hc : c.Reachable) {readings : Readings}
    {strengths : List Degree} (h : c.firingStrengths readings = .ok strengths) :
    ∃ sets entries, c.aggregate readings = .ok sets ∧ c.defuzzify readings = .ok entries ∧
      sets.map OutputSet.output = c.outputs ∧ entries.map Prod.fst = c.outputs ∧
      ∀ e ∈ entries, ∀ s ∈ sets, s.output = e.1 →
        e.2 = s.defuzzify (c.settings.strategyFor e.1) ∧
        (e.2 = .error (.noApplicableRule e.1) ↔ c.Silent strengths e.1) ∧
        (¬ c.Silent strengths e.1 →
          e.2 = .ok (s.moment (c.settings.strategyFor e.1) / s.total)) := by
  refine ⟨_, _, hc.wellFormed.aggregate_eq h, hc.wellFormed.defuzzify_eq h,
    map_output_setOf _ _ _, ?_, ?_⟩
  · rw [List.map_map]
    exact List.map_id _
  · intro e he s hs hOutput
    obtain ⟨output, -, rfl⟩ := List.mem_map.mp he
    obtain ⟨_, -, rfl⟩ := List.mem_map.mp hs
    subst hOutput
    refine ⟨rfl, ⟨?_, fun hSilent => defuzzify_of_silent h hSilent _⟩,
      fun hFires => defuzzify_of_not_silent h hFires _⟩
    intro hError
    by_contra hFires
    rw [defuzzify_of_not_silent h hFires] at hError
    cases hError

/-- Water that is cold and not warm: the rule for the fan does not fire, and the power has its number all
the same. -/
theorem entries_ventilated :
    WaterHeater.ventilated.Reachable ∧
    ∃ strengths sets,
      WaterHeater.ventilated.firingStrengths (WaterHeater.readings 20.0) = .ok strengths ∧
      WaterHeater.ventilated.aggregate (WaterHeater.readings 20.0) = .ok sets ∧
      sets.map OutputSet.output = ["Fan", "Power"] ∧
      WaterHeater.ventilated.defuzzify (WaterHeater.readings 20.0) =
        .ok [("Fan", .error (.noApplicableRule "Fan")), ("Power", .ok 50.0)] ∧
      WaterHeater.ventilated.Silent strengths "Fan" ∧
      ¬ WaterHeater.ventilated.Silent strengths "Power" ∧
      ∀ s ∈ sets, s.output = "Power" → s.moment .centroid / s.total = 50.0 := by
  have hReachable := WaterHeater.reachable_ventilated
  have hNumbers : WaterHeater.ventilated.defuzzify (WaterHeater.readings 20.0) =
      .ok [("Fan", .error (.noApplicableRule "Fan")), ("Power", .ok 50.0)] := by decide +kernel
  have hTotal : (WaterHeater.ventilated.firingStrengths
      (WaterHeater.readings 20.0)).toOption.isSome := by decide +kernel
  obtain ⟨strengths, hSome⟩ := Option.isSome_iff_exists.mp hTotal
  have hStrengths := toOption_eq_some_iff.mp hSome
  obtain ⟨sets, entries, hSets, hEntries, hOutputs, hKeys, hEach⟩ :=
    entries_of_reachable hReachable hStrengths
  have hSilent : ∀ e ∈ entries, (e.2 = .error (.noApplicableRule e.1) ↔
      WaterHeater.ventilated.Silent strengths e.1) := by
    intro e he
    have hName : e.1 ∈ sets.map OutputSet.output := by
      rw [hOutputs, ← hKeys]
      exact List.mem_map_of_mem he
    obtain ⟨s, hs, hOutput⟩ := List.mem_map.mp hName
    exact (hEach e he s hs hOutput).2.1
  obtain rfl := Except.ok.inj (hNumbers.symm.trans hEntries)
  have hFan : WaterHeater.ventilated.Silent strengths "Fan" :=
    (hSilent _ List.mem_cons_self).mp rfl
  have hPower : ¬ WaterHeater.ventilated.Silent strengths "Power" := by
    intro h
    cases (hSilent _ (List.mem_cons_of_mem _ List.mem_cons_self)).mpr h
  refine ⟨hReachable, strengths, sets, hStrengths, hSets, hOutputs.trans (by decide), hNumbers, hFan,
    hPower, ?_⟩
  intro s hs hOutput
  have hQuotient := (hEach _ (List.mem_cons_of_mem _ List.mem_cons_self) s hs hOutput).2.2 hPower
  exact (Except.ok.inj hQuotient).symm

end Controller

end FuzzyControl
