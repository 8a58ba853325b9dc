import FuzzyControl.Proofs.Building
import FuzzyControl.Proofs.Evaluation
import FuzzyControl.Proofs.Merging

/-! # Aggregation groups by term and keeps the greatest

Each rule passes its firing strength to all of its consequents. The sets of the outputs are these
`consequences`, those of rules that do not fire left out, sorted by output and merged by term: a set has
one entry for each term that fires, in the order in which the terms first do, with the shape that the
output's variable gives the term and the greatest strength of the rules that conclude it.
-/
namespace FuzzyControl

set_option autoImplicit false

/-- A consequent of some rule, with the strength of the rule. -/
structure Consequence where
  ref : TermRef
  strength : Degree

namespace Controller

/-- The consequents of all rules, in the order of the rules and as each rule lists them. -/
def consequences (c : Controller) (strengths : List Degree) : List Consequence :=
  (c.rules.zip strengths).flatMap fun p => p.1.consequents.map fun ref => ⟨ref, p.2⟩

/-- The consequences on an output, of the rules that fire. -/
def firing (c : Controller) (strengths : List Degree) (output : String) : List Consequence :=
  (c.consequences strengths).filter fun q => q.ref.owner == output && q.strength.isPositive

def shapeOf (c : Controller) (ref : TermRef) : Shape := (c.resolve ref).toOption.getD default

def contributionOf (c : Controller) (q : Consequence) : Contribution :=
  ⟨q.ref.term, c.shapeOf q.ref, q.strength⟩

def received (c : Controller) (strengths : List Degree) (output : String) : List Contribution :=
  (c.firing strengths output).map c.contributionOf

def setOf (c : Controller) (strengths : List Degree) (output : String) : OutputSet :=
  ⟨output, OutputSet.mergeAll (c.received strengths output)⟩

@[simp] theorem map_output_setOf (c : Controller) (strengths : List Degree)
    (outputs : List String) :
    (outputs.map (c.setOf strengths)).map OutputSet.output = outputs := by
  rw [List.map_map]
  exact List.map_id _

/-- What rules conclude from these of their consequences, as far as they fire. -/
def concluded (c : Controller) (qs : List Consequence) : List Conclusion :=
  (qs.filter fun q => q.strength.isPositive).map fun q => ⟨q.ref.owner, c.contributionOf q⟩

theorem mem_outputs_iff {c : Controller} {output : String} :
    output ∈ c.outputs ↔ ∃ r ∈ c.rules, ∃ ref ∈ r.consequents, ref.owner = output := by
  rw [outputs, Table.mem_names_ofList, List.map_map, List.mem_map]
  constructor
  · rintro ⟨ref, hRef, hOwner⟩
    obtain ⟨r, hr, hMem⟩ := List.mem_flatMap.mp hRef
    exact ⟨r, hr, ref, hMem, hOwner⟩
  · rintro ⟨r, hr, ref, hMem, hOwner⟩
    exact ⟨ref, List.mem_flatMap.mpr ⟨r, hr, hMem⟩, hOwner⟩

theorem mem_consequences_iff {c : Controller} {strengths : List Degree} {q : Consequence} :
    q ∈ c.consequences strengths ↔
      ∃ p ∈ c.rules.zip strengths, p.2 = q.strength ∧ q.ref ∈ p.1.consequents := by
  rw [consequences, List.mem_flatMap]
  constructor
  · rintro ⟨p, hp, hq⟩
    obtain ⟨ref, hRef, rfl⟩ := List.mem_map.mp hq
    exact ⟨p, hp, rfl, hRef⟩
  · rintro ⟨p, hp, hStrength, hRef⟩
    refine ⟨p, hp, List.mem_map.mpr ⟨q.ref, hRef, ?_⟩⟩
    rw [hStrength]

theorem mem_received_iff {c : Controller} {strengths : List Degree} {output : String}
    {k : Contribution} :
    k ∈ c.received strengths output ↔
      ∃ p ∈ c.rules.zip strengths, 0.0 < p.2.value ∧ ⟨output, k.term⟩ ∈ p.1.consequents ∧
        p.2 = k.strength ∧ c.shapeOf ⟨output, k.term⟩ = k.shape := by
  rw [received, List.mem_map]
  simp only [firing, List.mem_filter, Bool.and_eq_true, beq_iff_eq, Degree.isPositive_iff]
  constructor
  · rintro ⟨⟨⟨owner, term⟩, strength⟩, ⟨hMem, rfl, hPositive⟩, rfl⟩
    obtain ⟨p, hp, rfl, hRef⟩ := mem_consequences_iff.mp hMem
    exact ⟨p, hp, hPositive, hRef, rfl, rfl⟩
  · rintro ⟨p, hp, hPositive, hRef, hStrength, hShape⟩
    have hMem : ⟨⟨output, k.term⟩, p.2⟩ ∈ c.consequences strengths :=
      mem_consequences_iff.mpr ⟨p, hp, rfl, hRef⟩
    refine ⟨⟨⟨output, k.term⟩, p.2⟩, ⟨hMem, rfl, hPositive⟩, ?_⟩
    rw [contributionOf, hShape, hStrength]

theorem mem_received_of_fires {c : Controller} {strengths : List Degree} {output term : String}
    {p : Rule × Degree} (hp : p ∈ c.rules.zip strengths) (hPositive : 0.0 < p.2.value)
    (hRef : ⟨output, term⟩ ∈ p.1.consequents) :
    ⟨term, c.shapeOf ⟨output, term⟩, p.2⟩ ∈ c.received strengths output :=
  mem_received_iff.mpr ⟨p, hp, hPositive, hRef, rfl, rfl⟩

theorem gather_eq (c : Controller) (strengths : List Degree) (output : String) :
    OutputSet.gather output (c.concluded (c.consequences strengths)) = c.setOf strengths output := by
  have hPositive : ∀ k ∈ c.received strengths output, k.strength.isPositive = true := by
    intro k hk
    obtain ⟨p, -, hPositive, -, hStrength, -⟩ := mem_received_iff.mp hk
    rwa [← hStrength, Degree.isPositive_iff]
  have hFold : OutputSet.gather output (c.concluded (c.consequences strengths)) =
      (c.received strengths output).foldl OutputSet.record (.empty output) := by
    rw [OutputSet.gather, concluded, List.filter_map, List.filter_filter, received, List.foldl_map,
      List.foldl_map]
    rfl
  have hContributions :=
    OutputSet.contributions_foldl_record (c.received strengths output) (.empty output)
  rw [List.filter_eq_self.mpr hPositive, ← hFold] at hContributions
  exact congrArg₂ OutputSet.mk (output_gather _ _) hContributions

namespace WellFormed

variable {c : Controller} (hc : c.WellFormed) {readings : Readings} {strengths : List Degree}

include hc

theorem resolve_eq {q : Consequence} (hq : q ∈ c.consequences strengths) :
    c.resolve q.ref = .ok (c.shapeOf q.ref) := by
  obtain ⟨p, hp, -, hRef⟩ := mem_consequences_iff.mp hq
  obtain ⟨shape, hShape⟩ :=
    hc.declared p.1 (List.of_mem_zip hp).1 q.ref (List.mem_append_right _ hRef)
  rw [shapeOf, hShape]
  rfl

theorem conclude_eq {r : Rule} (hr : r ∈ c.rules) (s : Degree) :
    c.conclude r s = .ok (c.concluded (r.consequents.map fun ref => ⟨ref, s⟩)) := by
  rw [conclude, concluded, List.filter_map, List.map_map]
  by_cases hPositive : s.isPositive = true
  · have hAll : r.consequents.filter ((fun q => q.strength.isPositive) ∘
        fun ref => (⟨ref, s⟩ : Consequence)) = r.consequents :=
      List.filter_eq_self.mpr fun _ _ => hPositive
    rw [if_pos hPositive, hAll]
    apply mapM_eq_ok_map
    intro ref hRef
    obtain ⟨shape, hShape⟩ := hc.declared r hr ref (List.mem_append_right _ hRef)
    simp [contributionOf, shapeOf, hShape, bind, Except.bind, pure, Except.pure, Except.toOption]
  · have hNone : r.consequents.filter ((fun q => q.strength.isPositive) ∘
        fun ref => (⟨ref, s⟩ : Consequence)) = [] :=
      List.filter_eq_nil_iff.mpr fun _ _ => hPositive
    rw [if_neg hPositive, hNone]
    rfl

theorem conclusions_eq (h : c.firingStrengths readings = .ok strengths) :
    c.conclusions readings = .ok (c.concluded (c.consequences strengths)) := by
  have hPass := mapM_bind_of_mapM h c.conclude
  have hAll := mapM_eq_ok_map fun p (hp : p ∈ c.rules.zip strengths) =>
    hc.conclude_eq (List.of_mem_zip hp).1 p.2
  rw [conclusions]
  change ((c.rules.mapM fun r => r.antecedent.evaluate c.vars readings >>= c.conclude r) >>= _) = _
  rw [hPass, hAll]
  simp only [concluded, consequences, List.filter_flatMap, List.map_flatMap]
  rfl

theorem aggregate_eq (h : c.firingStrengths readings = .ok strengths) :
    c.aggregate readings = .ok (c.outputs.map (c.setOf strengths)) := by
  rw [aggregate, hc.conclusions_eq h]
  exact congrArg Except.ok (List.map_congr_left fun output _ => gather_eq c strengths output)

theorem fault?_aggregate_eq (readings : Readings) :
    fault? (c.aggregate readings) = fault? (c.firingStrengths readings) :=
  (hc.fault?_aggregate readings).trans (hc.fault?_firingStrengths readings).symm

theorem aggregate_eq_ok_iff {sets : List OutputSet} :
    c.aggregate readings = .ok sets ↔
      ∃ strengths, c.firingStrengths readings = .ok strengths ∧
        sets = c.outputs.map (c.setOf strengths) := by
  constructor
  · intro h
    have hTotal : fault? (c.firingStrengths readings) = none := by
      rw [← hc.fault?_aggregate_eq, h]
      rfl
    obtain ⟨strengths, hStrengths⟩ := fault?_eq_none_iff.mp hTotal
    rw [hc.aggregate_eq hStrengths] at h
    exact ⟨strengths, hStrengths, (Except.ok.inj h).symm⟩
  · rintro ⟨strengths, hStrengths, rfl⟩
    exact hc.aggregate_eq hStrengths

end WellFormed

section

variable {c : Controller} {readings : Readings} {strengths : List Degree}
  (h : c.firingStrengths readings = .ok strengths) {output : String}

include h

theorem proper_of_mem_zip {p : Rule × Degree} (hp : p ∈ c.rules.zip strengths) : p.2.Proper := by
  obtain ⟨r, -, hEvaluate⟩ := exists_of_mem_mapM h (List.of_mem_zip hp).2
  exact Antecedent.proper_evaluate hEvaluate

theorem proper_of_mem_received {k : Contribution} (hk : k ∈ c.received strengths output) :
    k.strength.Proper := by
  obtain ⟨p, hp, -, -, hStrength, -⟩ := mem_received_iff.mp hk
  rw [← hStrength]
  exact proper_of_mem_zip h hp

theorem merged_received (output : String) :
    OutputSet.Merged (c.received strengths output) (c.setOf strengths output).contributions :=
  OutputSet.merged_mergeAll fun _ hk => (proper_of_mem_received h hk).defined

variable {d : Contribution} (hd : d ∈ (c.setOf strengths output).contributions)

include hd

theorem proper_of_mem_setOf : d.strength.Proper := by
  obtain ⟨k, hk, -, hStrength⟩ := (merged_received h output).attained d hd
  rw [← hStrength]
  exact proper_of_mem_received h hk

theorem fires_of_mem_setOf : ∃ p ∈ c.rules.zip strengths, 0.0 < p.2.value ∧
    ⟨output, d.term⟩ ∈ p.1.consequents ∧ p.2 = d.strength := by
  obtain ⟨k, hk, hTerm, hStrength⟩ := (merged_received h output).attained d hd
  obtain ⟨p, hp, hPositive, hRef, hOwn, -⟩ := mem_received_iff.mp hk
  exact ⟨p, hp, hPositive, hTerm ▸ hRef, hOwn.trans hStrength⟩

theorem shape_of_mem_setOf : c.shapeOf ⟨output, d.term⟩ = d.shape := by
  obtain ⟨k, hFirst, hShape⟩ := (merged_received h output).first d hd
  obtain ⟨-, -, -, -, -, hOwn⟩ := mem_received_iff.mp (List.mem_of_find?_eq_some hFirst)
  have hTerm : k.term = d.term := by simpa using List.find?_some hFirst
  rw [← hTerm, hOwn, hShape]

theorem strength_le_of_mem_setOf {p : Rule × Degree} (hp : p ∈ c.rules.zip strengths)
    (hRef : ⟨output, d.term⟩ ∈ p.1.consequents) : p.2.value ≤ d.strength.value := by
  have hRule := proper_of_mem_zip h hp
  have hOwn := proper_of_mem_setOf h hd
  rw [hRule.defined.le_iff hOwn.defined]
  by_cases hPositive : 0.0 < p.2.value
  · have hReceived := mem_received_of_fires hp hPositive hRef
    have hBound := (merged_received h output).bound d hd _ hReceived rfl
    exact hBound
  · rw [← Degree.isPositive_iff, Bool.not_eq_true, hRule.isPositive_eq_false_iff] at hPositive
    rw [hPositive]
    exact hOwn.nonneg

theorem WellFormed.declares_of_mem_setOf (hc : c.WellFormed) :
    ∃ v, c.vars.find? output = some v ∧ v.name = output ∧ v.shape? d.term = some d.shape := by
  obtain ⟨p, hp, -, hRef, -⟩ := fires_of_mem_setOf h hd
  have hResolve := hc.resolve_eq (q := ⟨⟨output, d.term⟩, p.2⟩)
    (mem_consequences_iff.mpr ⟨p, hp, rfl, hRef⟩)
  rw [shape_of_mem_setOf h hd] at hResolve
  obtain ⟨v, hFind, hDeclared⟩ := resolve_eq_ok_iff.mp hResolve
  exact ⟨v, hFind, hc.named _ v hFind, hDeclared⟩

end

/-- What the set of an output has to be, for given firing strengths. -/
structure Groups (c : Controller) (strengths : List Degree) (s : OutputSet) : Prop where
  terms : s.contributions.map Contribution.term =
    ((c.firing strengths s.output).map fun q => q.ref.term).eraseDups
  nodup : (s.contributions.map Contribution.term).Nodup
  mem_terms : ∀ term, term ∈ s.contributions.map Contribution.term ↔
    ∃ p ∈ c.rules.zip strengths, 0.0 < p.2.value ∧ ⟨s.output, term⟩ ∈ p.1.consequents
  declared : ∀ k ∈ s.contributions, ∃ v, c.vars.find? s.output = some v ∧
    v.name = s.output ∧ v.shape? k.term = some k.shape
  attained : ∀ k ∈ s.contributions, ∃ p ∈ c.rules.zip strengths, 0.0 < p.2.value ∧
    ⟨s.output, k.term⟩ ∈ p.1.consequents ∧ p.2 = k.strength
  greatest : ∀ k ∈ s.contributions, ∀ p ∈ c.rules.zip strengths,
    ⟨s.output, k.term⟩ ∈ p.1.consequents → p.2.value ≤ k.strength.value

theorem WellFormed.groups {c : Controller} (hc : c.WellFormed) {readings : Readings}
    {strengths : List Degree} (h : c.firingStrengths readings = .ok strengths) (output : String) :
    c.Groups strengths (c.setOf strengths output) := by
  have hMerged := merged_received h output
  constructor
  case terms =>
    rw [hMerged.terms, received, List.map_map]
    rfl
  case nodup => exact hMerged.nodup
  case mem_terms =>
    intro term
    rw [List.mem_map]
    constructor
    · rintro ⟨d, hd, rfl⟩
      obtain ⟨p, hp, hPositive, hRef, -⟩ := fires_of_mem_setOf h hd
      exact ⟨p, hp, hPositive, hRef⟩
    · rintro ⟨p, hp, hPositive, hRef⟩
      exact hMerged.exists_of_mem (mem_received_of_fires hp hPositive hRef)
  case declared => exact fun d hd => hc.declares_of_mem_setOf h hd
  case attained => exact fun d hd => fires_of_mem_setOf h hd
  case greatest => exact fun d hd p hp hRef => strength_le_of_mem_setOf h hd hp hRef

/-- Whatever operations built a controller, its aggregation fails exactly as its firing strengths do;
otherwise it has one set for each output, and each set has what fires by terms. -/
theorem aggregate_of_reachable {c : Controller} (hc : c.Reachable) (readings : Readings) :
    (∀ fault, c.aggregate readings = .error fault ↔ c.firingStrengths readings = .error fault) ∧
    (∀ strengths, c.firingStrengths readings = .ok strengths →
      strengths.length = c.rules.length ∧
      ∃ sets, c.aggregate readings = .ok sets ∧ sets.map OutputSet.output = c.outputs ∧
        ∀ s ∈ sets, c.Groups strengths s) ∧
    c.outputs.Pairwise (· < ·) ∧
    (∀ output, output ∈ c.outputs ↔ ∃ r ∈ c.rules, ∃ ref ∈ r.consequents, ref.owner = output) := by
  refine ⟨?_, ?_, Table.pairwise_names _, fun _ => mem_outputs_iff⟩
  · intro fault
    rw [← fault?_eq_some_iff, ← fault?_eq_some_iff, hc.wellFormed.fault?_aggregate_eq]
  · intro strengths h
    refine ⟨length_of_mapM h, _, hc.wellFormed.aggregate_eq h, map_output_setOf _ _ _, ?_⟩
    intro s hs
    obtain ⟨output, -, rfl⟩ := List.mem_map.mp hs
    exact hc.wellFormed.groups h output

/-- The water heater at thirty-eight degrees, where the first of two rules fires. -/
theorem aggregate_waterHeater :
    (WaterHeater.controller .initial).Reachable ∧
    ∃ strengths sets,
      (WaterHeater.controller .initial).firingStrengths (WaterHeater.readings 38.0) =
        .ok strengths ∧
      strengths.map Degree.isPositive = [true, false] ∧
      (WaterHeater.controller .initial).aggregate (WaterHeater.readings 38.0) = .ok sets ∧
      sets.map OutputSet.output = ["Power"] ∧
      ∀ s ∈ sets, (WaterHeater.controller .initial).Groups strengths s := by
  have hReachable := WaterHeater.reachable .initial
  have hFires : ((WaterHeater.controller .initial).firingStrengths
      (WaterHeater.readings 38.0)).toOption.map (List.map Degree.isPositive) =
        some [true, false] := by decide +kernel
  obtain ⟨strengths, hStrengths, hPositive⟩ := Option.map_eq_some_iff.mp hFires
  have hOk := toOption_eq_some_iff.mp hStrengths
  obtain ⟨-, hSets, -, -⟩ := aggregate_of_reachable hReachable (WaterHeater.readings 38.0)
  obtain ⟨-, sets, hAggregate, hOutputs, hGroups⟩ := hSets strengths hOk
  exact ⟨hReachable, strengths, sets, hOk, hPositive, hAggregate, hOutputs.trans (by decide),
    hGroups⟩

end Controller

end FuzzyControl
