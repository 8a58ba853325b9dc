import FuzzyControl.Proofs.Aggregation

/-! # The merged sets are the max-min composition

The degree of a number in an output's set is defined by the merged contributions. It could as well be
found from all the rules: the greatest, over all their consequents on the output, of the lesser of the
strength and of the degree in the shape. Rules that do not fire add nothing to the maximum, and of
several rules with the same term only the strongest counts. `composition` says this with the maximum and
the minimum of the number line, which the connectives of degrees have to agree with.
-/
namespace FuzzyControl

set_option autoImplicit false

theorem Degree.Proper.degreeAt {k : Contribution} (hk : k.strength.Proper) (y : Float) :
    (k.degreeAt y).Proper :=
  hk.and (Degree.proper_clamp _)

theorem Degree.Defined.measure_degreeAt {k : Contribution} (hk : k.strength.Defined) (y : Float) :
    (k.degreeAt y).measure = min k.strength.measure (Degree.clamp (k.shape.grade y)).measure :=
  hk.measure_and (Degree.proper_clamp _).defined

namespace OutputSet

theorem proper_membership {s : OutputSet} {y : Float}
    (h : ∀ k ∈ s.contributions, (k.degreeAt y).Proper) : (s.membership y).Proper :=
  Degree.proper_foldl_or (List.forall_mem_map.mpr h) Degree.proper_zero

section

variable {s : OutputSet} (hs : ∀ k ∈ s.contributions, k.strength.Proper) (y : Float)

include hs

theorem measure_membership :
    (s.membership y).measure =
      (s.contributions.map fun k =>
        min k.strength.measure (Degree.clamp (k.shape.grade y)).measure).foldl max 0 := by
  have hDefined : ∀ d ∈ s.contributions.map (Contribution.degreeAt y), d.Defined :=
    List.forall_mem_map.mpr fun k hk => ((hs k hk).degreeAt y).defined
  rw [membership, Degree.measure_foldl_or hDefined Degree.proper_zero.defined, Degree.measure_zero,
    List.map_map]
  congr 1
  exact List.map_congr_left fun k hk => (hs k hk).defined.measure_degreeAt y

theorem measure_membership_le_iff {bound : EReal} :
    (s.membership y).measure ≤ bound ↔
      0 ≤ bound ∧ ∀ k ∈ s.contributions,
        min k.strength.measure (Degree.clamp (k.shape.grade y)).measure ≤ bound := by
  have hMax : ∀ ms : List EReal, ms.foldl max 0 ≤ bound ↔ ∀ m ∈ 0 :: ms, m ≤ bound := fun ms =>
    List.max_le_iff (List.cons_ne_nil 0 ms)
  rw [measure_membership hs, hMax, List.forall_mem_cons, List.forall_mem_map]

end

end OutputSet

namespace Controller

/-- The consequences on an output, whether their rules fire or not. -/
def proposed (c : Controller) (strengths : List Degree) (output : String) : List Consequence :=
  (c.consequences strengths).filter fun q => q.ref.owner == output

/-- The set of an output with nothing left out and nothing merged. -/
def offered (c : Controller) (strengths : List Degree) (output : String) : OutputSet :=
  ⟨output, (c.proposed strengths output).map c.contributionOf⟩

/-- The max-min composition of all rules, as a number: the maximum starts from zero. -/
noncomputable def composition (c : Controller) (strengths : List Degree) (output : String)
    (y : Float) : Except Fault EReal := do
  let degrees ← (c.proposed strengths output).mapM fun q => do
    let shape ← c.resolve q.ref
    pure (min q.strength.measure (Degree.clamp (shape.grade y)).measure)
  pure (degrees.foldl max 0)

section

variable {c : Controller} {readings : Readings} {strengths : List Degree}

theorem mem_received_iff_mem_offered {output : String} {k : Contribution} :
    k ∈ c.received strengths output ↔
      k ∈ (c.offered strengths output).contributions ∧ k.strength.isPositive = true := by
  simp only [received, firing, offered, proposed, List.mem_map, List.mem_filter, Bool.and_eq_true]
  constructor
  · rintro ⟨q, ⟨hq, hOwner, hPositive⟩, rfl⟩
    exact ⟨⟨q, ⟨hq, hOwner⟩, rfl⟩, hPositive⟩
  · rintro ⟨⟨q, ⟨hq, hOwner⟩, rfl⟩, hPositive⟩
    exact ⟨q, ⟨hq, hOwner, hPositive⟩, rfl⟩

variable (h : c.firingStrengths readings = .ok strengths)

include h

theorem proper_of_mem_offered {output : String} {k : Contribution}
    (hk : k ∈ (c.offered strengths output).contributions) : k.strength.Proper := by
  obtain ⟨q, hq, rfl⟩ := List.mem_map.mp hk
  obtain ⟨p, hp, hStrength, -⟩ := mem_consequences_iff.mp (List.mem_of_mem_filter hq)
  change q.strength.Proper
  rw [← hStrength]
  exact proper_of_mem_zip h hp

/-- The set of all that is proposed has the composition for its degrees. -/
theorem WellFormed.composition_eq (hc : c.WellFormed) (output : String) (y : Float) :
    c.composition strengths output y =
      .ok ((c.offered strengths output).membership y).measure := by
  have hDegrees : ((c.proposed strengths output).mapM fun q => do
      let shape ← c.resolve q.ref
      pure (min q.strength.measure (Degree.clamp (shape.grade y)).measure)) =
      .ok ((c.proposed strengths output).map fun q =>
        min q.strength.measure (Degree.clamp ((c.shapeOf q.ref).grade y)).measure) := by
    apply mapM_eq_ok_map
    intro q hq
    rw [hc.resolve_eq (List.mem_of_mem_filter hq)]
    rfl
  rw [composition, hDegrees, OutputSet.measure_membership (fun _ hk => proper_of_mem_offered h hk) y,
    offered, List.map_map]
  rfl

theorem shape_eq_of_term_eq {output : String} {d k : Contribution}
    (hd : d ∈ (c.setOf strengths output).contributions) (hk : k ∈ c.received strengths output)
    (hTerm : d.term = k.term) : d.shape = k.shape := by
  obtain ⟨-, -, -, -, -, hShape⟩ := mem_received_iff.mp hk
  rw [← shape_of_mem_setOf h hd, hTerm, hShape]

theorem measure_membership_setOf (output : String) (y : Float) :
    ((c.setOf strengths output).membership y).measure =
      ((c.offered strengths output).membership y).measure := by
  have hMerged := merged_received h output
  -- the two have the same bounds
  apply eq_of_forall_ge_iff
  intro bound
  rw [OutputSet.measure_membership_le_iff (fun _ hk => proper_of_mem_setOf h hk),
    OutputSet.measure_membership_le_iff (fun _ hk => proper_of_mem_offered h hk)]
  refine and_congr_right fun hBound => ⟨?_, ?_⟩
  · intro hAll k hk
    by_cases hPositive : k.strength.isPositive = true
    · have hReceived := mem_received_iff_mem_offered.mpr ⟨hk, hPositive⟩
      obtain ⟨d, hd, hTerm⟩ := hMerged.exists_of_mem hReceived
      have hLe := hMerged.bound d hd k hReceived hTerm.symm
      rw [← shape_eq_of_term_eq h hd hReceived hTerm]
      exact (min_le_min_right _ hLe).trans (hAll d hd)
    · rw [Bool.not_eq_true, (proper_of_mem_offered h hk).isPositive_eq_false_iff] at hPositive
      rw [hPositive]
      exact (min_le_left _ _).trans hBound
  · intro hAll d hd
    obtain ⟨k, hk, hTerm, hStrength⟩ := hMerged.attained d hd
    rw [← hStrength, shape_eq_of_term_eq h hd hk hTerm.symm]
    exact hAll k (mem_received_iff_mem_offered.mp hk).1

end

/-- Whatever operations built a controller, and for every number, undefined and infinite ones included:
the degree in each set is the max-min composition of all rules, and it lies in the unit interval. -/
theorem membership_of_reachable {c : Controller} (hc : c.Reachable) {readings : Readings}
    {sets : List OutputSet} (hSets : c.aggregate readings = .ok sets) :
    ∃ strengths, c.firingStrengths readings = .ok strengths ∧
      sets.map OutputSet.output = c.outputs ∧
      ∀ s ∈ sets, ∀ y : Float,
        c.composition strengths s.output y = .ok (s.membership y).measure ∧
        0.0 ≤ (s.membership y).value ∧ (s.membership y).value ≤ 1.0 := by
  obtain ⟨strengths, h, rfl⟩ := hc.wellFormed.aggregate_eq_ok_iff.mp hSets
  refine ⟨strengths, h, map_output_setOf _ _ _, ?_⟩
  intro s hs y
  obtain ⟨output, -, rfl⟩ := List.mem_map.mp hs
  have hMembership : ((c.setOf strengths output).membership y).Proper :=
    OutputSet.proper_membership fun _ hk => (proper_of_mem_setOf h hk).degreeAt y
  refine ⟨?_, ?_, ?_⟩
  · rw [measure_membership_setOf h]
    exact hc.wellFormed.composition_eq h output y
  · exact hMembership.zero_le_value
  · exact hMembership.value_le_one

theorem membership_waterHeater :
    (WaterHeater.controller .initial).Reachable ∧
    ∃ sets strengths,
      (WaterHeater.controller .initial).aggregate (WaterHeater.readings 38.0) = .ok sets ∧
      (WaterHeater.controller .initial).firingStrengths (WaterHeater.readings 38.0) =
        .ok strengths ∧
      sets.map OutputSet.output = ["Power"] ∧
      ∀ s ∈ sets,
        (WaterHeater.controller .initial).composition strengths s.output 30.0 =
          .ok (s.membership 30.0).measure := by
  have hReachable := WaterHeater.reachable .initial
  have hTotal : ((WaterHeater.controller .initial).aggregate
      (WaterHeater.readings 38.0)).toOption.isSome := by decide +kernel
  obtain ⟨sets, hSome⟩ := Option.isSome_iff_exists.mp hTotal
  have hSets := toOption_eq_some_iff.mp hSome
  obtain ⟨strengths, hStrengths, hOutputs, hDegrees⟩ := membership_of_reachable hReachable hSets
  exact ⟨hReachable, sets, strengths, hSets, hStrengths, hOutputs.trans (by decide),
    fun s hs => (hDegrees s hs 30.0).1⟩

end Controller

end FuzzyControl
