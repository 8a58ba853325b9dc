import FuzzyControl.Proofs.Binary64.Identity
import FuzzyControl.Proofs.RuleOrder

/-! # The order of the summands

The number of an output is a quotient of two sums of doubles, taken in the order in which the terms of
the output first fire. Such a sum is rounded at each step, so that rules in another order may give
another number as soon as three terms fire. A sum does not depend on the order if it is the order of the
first two summands only that differs, because addition commutes, or if the sums are not rounded.
-/
namespace FuzzyControl

open Binary64

set_option autoImplicit false

namespace OutputSet

/-- The sum has the value that the sum of the values has. -/
def Exact (xs : List Float) : Prop := Denotes (sum xs) (xs.map value).sum

/-- Two orders of the same summands that cannot be told apart by their sums. -/
def Indifferent (xs ys : List Float) : Prop :=
  xs.drop 2 = ys.drop 2 ∨ (Exact xs ∧ Exact ys)

theorem sum_append (xs ys : List Float) : sum (xs ++ ys) = ys.foldl (· + ·) (sum xs) :=
  List.foldl_append

theorem sum_eq_negZero_iff (xs : List Float) : sum xs = -0.0 ↔ ∀ x ∈ xs, x = -0.0 := by
  induction xs using List.reverseRecOn with
  | nil => exact iff_of_true rfl nofun
  | append_singleton xs x ih =>
    rw [sum_append, List.foldl_cons, List.foldl_nil, add_eq_negZero_iff, ih, List.forall_mem_append,
      List.forall_mem_singleton]

theorem sum_pair_symm (x y : Float) : sum [x, y] = sum [y, x] := by
  have hPair : ∀ x y : Float, sum [x, y] = x + y := fun x y => congrArg (· + y) (negZero_add x)
  rw [hPair, hPair, add_symm]

section

variable {xs ys : List Float} (hPerm : xs.Perm ys)

include hPerm

theorem sum_eq_of_length_le (h : xs.length ≤ 2) : sum xs = sum ys := by
  match xs, h with
  | [], _ => rw [hPerm.nil_eq]
  | [x], _ => rw [List.singleton_perm.mp hPerm]
  | [x, y], _ =>
    obtain rfl | rfl := List.pair_perm.mp hPerm
    · rfl
    · exact sum_pair_symm x y

theorem sum_eq_of_drop_eq (h : xs.drop 2 = ys.drop 2) : sum xs = sum ys := by
  have hTake : (xs.take 2).Perm (ys.take 2) := by
    rw [← List.take_append_drop 2 xs, ← List.take_append_drop 2 ys, h] at hPerm
    exact (List.perm_append_right_iff _).mp hPerm
  rw [← List.take_append_drop 2 xs, ← List.take_append_drop 2 ys, sum_append, sum_append, h,
    sum_eq_of_length_le hTake (List.length_take_le 2 xs)]

theorem sum_eq_of_exact (hxs : Exact xs) (hys : Exact ys) : sum xs = sum ys := by
  have hValues : (ys.map value).sum = (xs.map value).sum := (hPerm.map value).symm.sum_eq
  rw [Exact, hValues] at hys
  by_cases hZero : (xs.map value).sum = 0
  · -- the two zeros have the same value, but a sum is the negative one only if all summands are
    rw [Exact, hZero] at hxs
    rw [hZero] at hys
    have hSign : sum xs = -0.0 ↔ sum ys = -0.0 := by
      simp only [sum_eq_negZero_iff, hPerm.mem_iff]
    obtain hx | hx := hxs.eq_zero_or
    · obtain hy | hy := hys.eq_zero_or
      · rw [hx, hy]
      · rw [hSign.mpr hy, hy]
    · rw [hx, hSign.mp hx]
  · exact hxs.eq_of_ne_zero hys hZero

theorem sum_eq_of_indifferent (h : Indifferent xs ys) : sum xs = sum ys := by
  obtain hDrop | ⟨hxs, hys⟩ := h
  · exact sum_eq_of_drop_eq hPerm hDrop
  · exact sum_eq_of_exact hPerm hxs hys

end

def strengths (s : OutputSet) : List Float := s.contributions.map fun k => k.strength.value

/-- The summands of the numerator. -/
def moments (s : OutputSet) (strategy : Strategy) : List Float :=
  s.contributions.map fun k => k.strength.value * strategy.point k.shape

/-- What the numbers of two sets have in common if the contributions of one are those of the other in an
order of their own: both are quotients of the two sums, and are the same as soon as neither of the sums
tells the orders apart. -/
structure Rearranged (strategy : Strategy) (s t : OutputSet) : Prop where
  output : t.output = s.output
  contributions : t.contributions.Perm s.contributions
  empty : s.contributions = [] →
    s.defuzzify strategy = .error (.noApplicableRule s.output) ∧
      t.defuzzify strategy = .error (.noApplicableRule s.output)
  quotient : s.contributions ≠ [] →
    s.defuzzify strategy = .ok (sum (s.moments strategy) / sum s.strengths) ∧
      t.defuzzify strategy = .ok (sum (t.moments strategy) / sum t.strengths)
  same : Indifferent t.strengths s.strengths →
    Indifferent (t.moments strategy) (s.moments strategy) →
      t.defuzzify strategy = s.defuzzify strategy

theorem Counted.defuzzify_eq {shapes : String → Shape} {s : OutputSet}
    (h : Counted shapes s.contributions) (hSome : s.contributions ≠ []) (strategy : Strategy) :
    s.defuzzify strategy = .ok (sum (s.moments strategy) / sum s.strengths) :=
  if_neg (mt h.total_le_zero_iff.mp hSome)

theorem rearranged_of_perm {shapes : String → Shape} {s t : OutputSet}
    (hs : Counted shapes s.contributions) (ht : Counted shapes t.contributions)
    (hOutput : t.output = s.output) (hPerm : t.contributions.Perm s.contributions)
    (strategy : Strategy) : Rearranged strategy s t := by
  refine ⟨hOutput, hPerm, ?_, ?_, ?_⟩
  · intro hNone
    have hOther : t.contributions = [] := (hNone ▸ hPerm).eq_nil
    refine ⟨(hs.defuzzify_eq_error_iff strategy).mpr hNone, ?_⟩
    rw [← hOutput]
    exact (ht.defuzzify_eq_error_iff strategy).mpr hOther
  · intro hSome
    have hOther : t.contributions ≠ [] := fun hNone => hSome (hNone ▸ hPerm).symm.eq_nil
    exact ⟨hs.defuzzify_eq hSome strategy, ht.defuzzify_eq hOther strategy⟩
  · intro hStrengths hMoments
    have hTotal : t.total = s.total := sum_eq_of_indifferent (hPerm.map _) hStrengths
    have hMoment : t.moment strategy = s.moment strategy :=
      sum_eq_of_indifferent (hPerm.map _) hMoments
    rw [defuzzify, defuzzify, hTotal, hMoment, hOutput]

/-- Two contributions are too few to tell their orders apart. -/
theorem Rearranged.defuzzify_eq_of_length_le {strategy : Strategy} {s t : OutputSet}
    (h : Rearranged strategy s t) (hFew : s.contributions.length ≤ 2) :
    t.defuzzify strategy = s.defuzzify strategy := by
  have hOther : t.contributions.length ≤ 2 := h.contributions.length_eq.trans_le hFew
  have hNone : ∀ f : Contribution → Float,
      (t.contributions.map f).drop 2 = (s.contributions.map f).drop 2 := by
    intro f
    rw [List.drop_eq_nil_of_le (by simpa using hOther), List.drop_eq_nil_of_le (by simpa using hFew)]
  exact h.same (.inl (hNone _)) (.inl (hNone _))

end OutputSet

namespace Controller

open OutputSet

/-- Whatever operations built a controller, and for any order of its rules: where the evaluation succeeds
it does so in the other order, for the same outputs, and the number of each is found from the same
contributions, of which only the order may differ. -/
theorem numbers_of_reachable {c : Controller} (hc : c.Reachable) {rules : List Rule}
    (hPerm : rules.Perm c.rules) {readings : Readings}
    {entries : List (String × Except Fault Float)} (h : c.defuzzify readings = .ok entries) :
    (c.withRules rules).Reachable ∧ ∃ sets sets',
      c.aggregate readings = .ok sets ∧ (c.withRules rules).aggregate readings = .ok sets' ∧
      sets.map OutputSet.output = c.outputs ∧
      entries = sets.map (fun s => (s.output, s.defuzzify (c.settings.strategyFor s.output))) ∧
      (c.withRules rules).defuzzify readings =
        .ok (sets'.map fun s => (s.output, s.defuzzify (c.settings.strategyFor s.output))) ∧
      List.Forall₂ (fun s s' => Rearranged (c.settings.strategyFor s.output) s s' ∧
        (s.contributions.length ≤ 2 → s'.defuzzify (c.settings.strategyFor s.output) =
          s.defuzzify (c.settings.strategyFor s.output))) sets sets' := by
  have hOther := hc.withRules_of_perm hPerm
  obtain ⟨hRead, hEntries⟩ := (defuzzify_eq_ok_iff_collected hc.wellFormed).mp h
  have hRead' := (unread?_withRules_of_perm hPerm readings).mpr hRead
  have hOutputs := outputs_withRules_of_perm hPerm
  refine ⟨hOther, c.outputs.map (c.collectedSet readings),
    c.outputs.map ((c.withRules rules).collectedSet readings), ?_, ?_, ?_, ?_, ?_, ?_⟩
  · exact (aggregate_eq_ok_iff_collected hc.wellFormed).mpr ⟨hRead, rfl⟩
  · rw [← hOutputs]
    exact (aggregate_eq_ok_iff_collected hOther.wellFormed).mpr ⟨hRead', rfl⟩
  · rw [List.map_map]
    exact List.map_id _
  · rw [hEntries, List.map_map]
    rfl
  · rw [List.map_map, ← hOutputs]
    exact (defuzzify_eq_ok_iff_collected hOther.wellFormed).mpr ⟨hRead', rfl⟩
  · rw [List.forall₂_map_left_iff, List.forall₂_map_right_iff, List.forall₂_same]
    intro output _
    have hRearranged := rearranged_of_perm (hc.wellFormed.counted_collectedSet hRead output)
      (hOther.wellFormed.counted_collectedSet hRead' output) rfl
      (contributions_withRules_of_perm hPerm hc hRead output) (c.settings.strategyFor output)
    exact ⟨hRearranged, hRearranged.defuzzify_eq_of_length_le⟩

/-- The water heater with its rules exchanged: both orders give the same number. -/
theorem numbers_waterHeater :
    (WaterHeater.controller .initial).Reachable ∧
    WaterHeater.rules.reverse.Perm (WaterHeater.controller .initial).rules ∧
    ∃ sets sets' entries,
      (WaterHeater.controller .initial).aggregate (WaterHeater.readings 65.0) = .ok sets ∧
      ((WaterHeater.controller .initial).withRules WaterHeater.rules.reverse).aggregate
        (WaterHeater.readings 65.0) = .ok sets' ∧
      sets.map (fun s => s.contributions.map Contribution.term) = [["High", "Low"]] ∧
      sets'.map (fun s => s.contributions.map Contribution.term) = [["Low", "High"]] ∧
      (WaterHeater.controller .initial).defuzzify (WaterHeater.readings 65.0) = .ok entries ∧
      ((WaterHeater.controller .initial).withRules WaterHeater.rules.reverse).defuzzify
        (WaterHeater.readings 65.0) = .ok entries := by
  have hReachable := WaterHeater.reachable .initial
  have hPerm : WaterHeater.rules.reverse.Perm (WaterHeater.controller .initial).rules :=
    List.reverse_perm _
  have hRead : (WaterHeater.controller .initial).unread? (WaterHeater.readings 65.0) = none := by
    decide
  obtain ⟨entries, hEntries⟩ := (exists_defuzzify_iff hReachable.wellFormed).mpr hRead
  obtain ⟨-, sets, sets', hSets, hSets', -, hFirst, hSecond, hAll⟩ :=
    numbers_of_reachable hReachable hPerm hEntries
  have hTerms := map_term_waterHeater
  have hTerms' := map_term_waterHeater_reverse
  rw [hSets] at hTerms
  rw [hSets'] at hTerms'
  obtain ⟨s, rfl, hs⟩ := List.map_eq_singleton_iff.mp (Option.some.inj hTerms)
  obtain ⟨s', rfl, hs'⟩ := List.map_eq_singleton_iff.mp (Option.some.inj hTerms')
  obtain ⟨⟨hRearranged, hFew⟩, -⟩ := List.forall₂_cons.mp hAll
  have hLength : s.contributions.length ≤ 2 := by
    rw [← List.length_map Contribution.term, hs]
    exact le_rfl
  refine ⟨hReachable, hPerm, _, _, entries, hSets, hSets', Option.some.inj hTerms,
    Option.some.inj hTerms', hEntries, ?_⟩
  rw [hSecond, hFirst, List.map_singleton, List.map_singleton, hRearranged.output, hFew hLength]

end Controller

namespace Ventilation

/-- What is measured is high as far as the reading is near one. -/
def sensor (name : String) : Variable := ⟨name, [⟨"High", .triangle 0.0 1.0 2.0⟩]⟩

def fan : Variable :=
  { name := "Fan"
    terms :=
      [⟨"Low", .triangle 0.0 25.0 50.0⟩, ⟨"Medium", .triangle 25.0 50.0 75.0⟩,
       ⟨"High", .triangle 50.0 75.0 100.0⟩] }

def rules : List Rule :=
  [Antecedent.implies (.about ⟨"Damp", "High"⟩) ⟨"Fan", "Low"⟩,
   Antecedent.implies (.about ⟨"Heat", "High"⟩) ⟨"Fan", "Medium"⟩,
   Antecedent.implies (.about ⟨"Smoke", "High"⟩) ⟨"Fan", "High"⟩]

def controller : Controller :=
  (Controller.new .initial).run
    [.addVariables [sensor "Damp", sensor "Heat", sensor "Smoke", fan], .addRules rules]

def readings : Readings := [("Damp", 0.1), ("Heat", 0.2), ("Smoke", 0.3)]

end Ventilation

/-- Three rules for one output that all fire: if the first comes last, the number of the output differs
in its last digits. -/
theorem Controller.number_depends_on_order :
    Ventilation.controller.Reachable ∧
    (Ventilation.rules.rotate 1).Perm Ventilation.controller.rules ∧
    Ventilation.controller.defuzzify Ventilation.readings =
      .ok [("Fan", .ok 58.33333333333332)] ∧
    (Ventilation.controller.withRules (Ventilation.rules.rotate 1)).defuzzify Ventilation.readings =
      .ok [("Fan", .ok 58.333333333333336)] ∧
    (58.33333333333332 : Float) ≠ 58.333333333333336 := by
  refine ⟨⟨.initial, _, rfl⟩, List.rotate_perm Ventilation.rules 1, ?_, ?_, ?_⟩
  · decide +kernel
  · decide +kernel
  · decide +kernel

end FuzzyControl
