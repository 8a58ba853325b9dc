import FuzzyControl.Proofs.OtherRules
import Mathlib.Logic.Relation

/-! # Saying the same with other rules

Two neighbouring rules with the same consequents may be joined by "or", a rule with several consequents
may be divided in two, and a rule may be said again at the end. None of this changes an evaluation, not
even the fault that it reports or the order in which the terms of a set stand: what is then given to an
output outweighs what was given before, and the other way round, and the terms first occur in the same
order.
-/
namespace FuzzyControl

set_option autoImplicit false

/-- The rules on the right say what those on the left do, in one of three ways. -/
inductive Restates : List Rule → List Rule → Prop where
  | join (before after : List Rule) (p q : Antecedent) (ref : TermRef) (others : List TermRef) :
      Restates (before ++ ⟨p, ref, others⟩ :: ⟨q, ref, others⟩ :: after)
        (before ++ ⟨.or p q, ref, others⟩ :: after)
  | divide (before after : List Rule) (p : Antecedent) (ref : TermRef) (others : List TermRef)
      (ref' : TermRef) (others' : List TermRef) :
      Restates (before ++ ⟨p, ref, others ++ ref' :: others'⟩ :: after)
        (before ++ ⟨p, ref, others⟩ :: ⟨p, ref', others'⟩ :: after)
  | again (rules : List Rule) (r : Rule) (hr : r ∈ rules) : Restates rules (rules ++ [r])

theorem find?_append_of_subset {α : Type} {as bs : List α} (q : α → Bool)
    (h : bs ⊆ as) (cs : List α) : (as ++ bs ++ cs).find? q = (as ++ cs).find? q := by
  rw [List.find?_append, List.find?_append, List.find?_append]
  cases hFind : as.find? q with
  | some a => rfl
  | none =>
    have hNone : bs.find? q = none :=
      List.find?_eq_none.mpr fun b hb => List.find?_eq_none.mp hFind b (h hb)
    rw [hNone]
    rfl

namespace Controller

open OutputSet

variable {c : Controller} {readings : Readings} {output : String}

section

variable {p q : Antecedent} {ref : TermRef} {others : List TermRef}

theorem validate_or (hp : c.validate ⟨p, ref, others⟩ = .ok ())
    (hq : c.validate ⟨q, ref, others⟩ = .ok ()) : c.validate ⟨.or p q, ref, others⟩ = .ok () := by
  simp only [validate_eq_ok_iff, List.forall_mem_append] at hp hq ⊢
  obtain ⟨hForeign, hAtoms, hRefs⟩ := hp
  obtain ⟨hForeign', hAtoms', -⟩ := hq
  refine ⟨?_, List.forall_mem_append.mpr ⟨hAtoms, hAtoms'⟩, hRefs⟩
  rw [Antecedent.foreign?, hForeign, hForeign']
  rfl

theorem validate_divide {ref' : TermRef} {others' : List TermRef}
    (h : c.validate ⟨p, ref, others ++ ref' :: others'⟩ = .ok ()) :
    c.validate ⟨p, ref, others⟩ = .ok () ∧ c.validate ⟨p, ref', others'⟩ = .ok () := by
  have hSplit : Rule.consequents ⟨p, ref, others ++ ref' :: others'⟩ =
      Rule.consequents ⟨p, ref, others⟩ ++ Rule.consequents ⟨p, ref', others'⟩ := rfl
  simp only [validate_eq_ok_iff, hSplit, List.forall_mem_append] at h ⊢
  obtain ⟨hForeign, hAtoms, hFirst, hSecond⟩ := h
  exact ⟨⟨hForeign, hAtoms, hFirst⟩, hForeign, hAtoms, hSecond⟩

theorem given_divide (ref' : TermRef) (others' : List TermRef) :
    c.given readings output ⟨p, ref, others ++ ref' :: others'⟩ =
      c.given readings output ⟨p, ref, others⟩ ++ c.given readings output ⟨p, ref', others'⟩ := by
  have hSplit : Rule.consequents ⟨p, ref, others ++ ref' :: others'⟩ =
      Rule.consequents ⟨p, ref, others⟩ ++ Rule.consequents ⟨p, ref', others'⟩ := rfl
  simp only [given, hSplit, List.filter_append, List.map_append]
  split_ifs
  · rfl
  · rfl

variable {a b : Degree} (hp : p.evaluate c.vars readings = .ok a)
  (hq : q.evaluate c.vars readings = .ok b)

include hp hq

theorem strengthOf_or : c.strengthOf readings (.or p q) = a.or b := by
  apply strengthOf_eq
  rw [Antecedent.evaluate, hp, hq]
  rfl

/-- The joined rule is as strong as the stronger of the two, and gives what that one gave. -/
theorem given_or_subset :
    c.given readings output ⟨.or p q, ref, others⟩ ⊆
      c.given readings output ⟨p, ref, others⟩ ++ c.given readings output ⟨q, ref, others⟩ := by
  intro k hk
  rw [mem_given_iff, strengthOf_or hp hq] at hk
  rw [List.mem_append, mem_given_iff, mem_given_iff, strengthOf_eq hp,
    strengthOf_eq hq]
  obtain h | h := Degree.or_eq_or a b <;> rw [h] at hk
  · exact .inl hk
  · exact .inr hk

theorem outweighs_given_or :
    Outweighs (c.given readings output ⟨.or p q, ref, others⟩)
      (c.given readings output ⟨p, ref, others⟩ ++ c.given readings output ⟨q, ref, others⟩) := by
  have ha := (Antecedent.proper_evaluate hp).defined
  have hb := (Antecedent.proper_evaluate hq).defined
  intro j hj
  rw [List.mem_append, mem_given_iff, mem_given_iff, strengthOf_eq hp,
    strengthOf_eq hq] at hj
  simp only [mem_given_iff, strengthOf_or hp hq, ha.isPositive_or hb, Bool.or_eq_true]
  obtain ⟨hPositive, ref', hRef, hOwner, rfl⟩ | ⟨hPositive, ref', hRef, hOwner, rfl⟩ := hj
  · refine ⟨_, ⟨.inl hPositive, ref', hRef, hOwner, rfl⟩, rfl, ?_⟩
    exact (le_max_left _ _).trans_eq (ha.measure_or hb).symm
  · refine ⟨_, ⟨.inr hPositive, ref', hRef, hOwner, rfl⟩, rfl, ?_⟩
    exact (le_max_right _ _).trans_eq (ha.measure_or hb).symm

theorem alike_given_or (output : String) (ref : TermRef) (others : List TermRef)
    (ks js : List Contribution) :
    Alike
      (ks ++ (c.given readings output ⟨p, ref, others⟩ ++ c.given readings output ⟨q, ref, others⟩)
        ++ js)
      (ks ++ c.given readings output ⟨.or p q, ref, others⟩ ++ js) := by
  have ha := (Antecedent.proper_evaluate hp).defined
  have hb := (Antecedent.proper_evaluate hq).defined
  refine ⟨(outweighs_of_subset (given_or_subset hp hq)).between ks js,
    (outweighs_given_or hp hq).between ks js, ?_⟩
  simp only [List.map_append, map_term_given, strengthOf_eq hp,
    strengthOf_eq hq, strengthOf_or hp hq, ha.isPositive_or hb]
  -- the second rule repeats the terms of the first, or gives none, unless only the second fires
  cases a.isPositive with
  | false => rfl
  | true =>
    rw [← List.append_assoc]
    apply eraseDups_append_of_subset
    apply List.subset_append_of_subset_right
    cases b.isPositive with
    | false => exact List.nil_subset _
    | true => exact List.Subset.refl _

end

section

variable {rules : List Rule} (h : Restates c.rules rules)

include h

theorem unread?_of_restates (readings : Readings) :
    (c.withRules rules).unread? readings = c.unread? readings := by
  rw [unread?, unread?, statements, statements, rules_withRules]
  generalize c.rules = old at h
  cases h with
  | join before after p q ref others =>
    simp only [List.flatMap_append, List.flatMap_cons, Antecedent.atoms, List.append_assoc]
  | divide before after p ref others ref' others' =>
    have hTwice := find?_append_of_subset (unread readings)
      (List.subset_append_right (before.flatMap fun r => r.antecedent.atoms) p.atoms)
      (after.flatMap fun r => r.antecedent.atoms)
    simpa only [List.flatMap_append, List.flatMap_cons, List.append_assoc] using hTwice
  | again _ r hr =>
    have hOld : r.antecedent.atoms ⊆ old.flatMap fun r => r.antecedent.atoms :=
      fun a ha => List.mem_flatMap.mpr ⟨r, hr, ha⟩
    have hTwice := find?_append_of_subset (unread readings) hOld []
    simpa only [List.flatMap_append, List.flatMap_singleton, List.append_nil] using hTwice

theorem outputs_of_restates : (c.withRules rules).outputs = c.outputs := by
  have hRefs : ∀ ref,
      ref ∈ rules.flatMap Rule.consequents ↔ ref ∈ c.rules.flatMap Rule.consequents := by
    intro ref'
    generalize c.rules = old at h
    cases h with
    | join before after p q ref others =>
      simp only [List.flatMap_append, List.flatMap_cons, List.mem_append, Rule.consequents,
        or_self_left]
    | divide before after p ref others =>
      simp only [List.flatMap_append, List.flatMap_cons, List.mem_append, Rule.consequents,
        List.mem_cons, or_assoc]
    | again _ r hr =>
      have hOld : ref' ∈ r.consequents → ref' ∈ old.flatMap Rule.consequents :=
        fun hMem => List.mem_flatMap.mpr ⟨r, hr, hMem⟩
      rw [List.flatMap_append, List.flatMap_singleton, List.mem_append, or_iff_left_of_imp hOld]
  apply outputs_eq_of_mem_iff
  intro output
  simp only [outputs, Table.mem_names_ofList, List.map_map, List.mem_map, hRefs, rules_withRules]

theorem validate_of_restates (hValid : ∀ r ∈ c.rules, c.validate r = .ok ()) :
    ∀ r ∈ rules, c.validate r = .ok () := by
  generalize c.rules = old at h hValid
  cases h with
  | join before after p q ref others =>
    simp only [List.forall_mem_append, List.forall_mem_cons] at hValid ⊢
    obtain ⟨hBefore, hp, hq, hAfter⟩ := hValid
    exact ⟨hBefore, validate_or hp hq, hAfter⟩
  | divide before after p ref others ref' others' =>
    simp only [List.forall_mem_append, List.forall_mem_cons] at hValid ⊢
    obtain ⟨hBefore, hRule, hAfter⟩ := hValid
    obtain ⟨hFirst, hSecond⟩ := validate_divide hRule
    exact ⟨hBefore, hFirst, hSecond, hAfter⟩
  | again _ r hr => exact List.forall_mem_append.mpr ⟨hValid, by simpa using hValid r hr⟩

theorem alike_of_restates (output : String)
    (hEval : ∀ r ∈ c.rules,
      r.antecedent.evaluate c.vars readings = .ok (c.strengthOf readings r.antecedent)) :
    Alike (c.collected readings output) ((c.withRules rules).collected readings output) := by
  change Alike (c.rules.flatMap (c.given readings output)) (rules.flatMap (c.given readings output))
  generalize c.rules = old at h hEval
  cases h with
  | join before after p q ref others =>
    have hp := hEval ⟨p, ref, others⟩ (by simp)
    have hq := hEval ⟨q, ref, others⟩ (by simp)
    have hAlike := alike_given_or hp hq output ref others
      (before.flatMap (c.given readings output)) (after.flatMap (c.given readings output))
    simpa only [List.flatMap_append, List.flatMap_cons, List.append_assoc] using hAlike
  | divide before after p ref others ref' others' =>
    apply alike_of_eq
    simp only [List.flatMap_append, List.flatMap_cons, List.append_assoc, given_divide]
  | again _ r hr =>
    rw [List.flatMap_append, List.flatMap_singleton]
    exact alike_append_of_subset fun k hk => List.mem_flatMap.mpr ⟨r, hr, hk⟩

end

section

variable {rules : List Rule} (hc : c.Reachable) (h : Restates c.rules rules)

include hc h

theorem Reachable.restate : (c.withRules rules).Reachable :=
  hc.withRules (validate_of_restates h hc.validate)

theorem collectedSet_of_restates (hRead : c.unread? readings = none) :
    (c.withRules rules).collectedSet readings output = c.collectedSet readings output := by
  have hOther := (hc.restate h).wellFormed
  have hOtherRead := (unread?_of_restates h readings).trans hRead
  have hMerged := hc.wellFormed.merged_collected hRead output
  have hOtherMerged := hOther.merged_collected hOtherRead output
  have hAlike := alike_of_restates h output fun r hr => hc.wellFormed.evaluate_eq hRead hr
  have hEq := hMerged.eq_of_alike hOtherMerged (hc.wellFormed.counted hRead output)
    (hOther.counted hOtherRead output) hAlike
  exact congrArg (OutputSet.mk output) hEq.symm

theorem aggregate_of_restates : (c.withRules rules).aggregate readings = c.aggregate readings := by
  have hOther := (hc.restate h).wellFormed
  have hUnread := unread?_of_restates h readings
  cases hRead : c.unread? readings with
  | some a =>
    have hFault := hc.wellFormed.fault?_aggregate readings
    have hOtherFault := hOther.fault?_aggregate readings
    rw [hUnread] at hOtherFault
    rw [hRead] at hFault hOtherFault
    rw [fault?_eq_some_iff.mp hFault, fault?_eq_some_iff.mp hOtherFault]
  | none =>
    have hSets := (aggregate_eq_ok_iff_collected hc.wellFormed).mpr ⟨hRead, rfl⟩
    have hOtherSets := (aggregate_eq_ok_iff_collected hOther).mpr ⟨hUnread.trans hRead, rfl⟩
    rw [hSets, hOtherSets, outputs_of_restates h]
    congr 2
    funext output
    exact collectedSet_of_restates hc h hRead

end

/-- Whatever operations built a controller, its rules may be restated any number of times: an
evaluation gives the same sets and numbers, or fails with the same fault. -/
theorem restated_of_reachable {c : Controller} (hc : c.Reachable) {rules : List Rule}
    (h : Relation.ReflTransGen Restates c.rules rules) :
    (c.withRules rules).Reachable ∧ ∀ readings,
      (c.withRules rules).aggregate readings = c.aggregate readings ∧
      (c.withRules rules).defuzzify readings = c.defuzzify readings := by
  have hRun : (c.withRules rules).Reachable ∧ ∀ readings,
      (c.withRules rules).aggregate readings = c.aggregate readings := by
    induction h with
    | refl => exact ⟨hc, fun _ => rfl⟩
    | @tail mid rules _ hStep ih =>
      obtain ⟨hMid, hSame⟩ := ih
      have hLast : Restates (c.withRules mid).rules rules := hStep
      refine ⟨hMid.restate hLast, fun readings => ?_⟩
      exact (aggregate_of_restates hMid hLast).trans (hSame readings)
  refine ⟨hRun.1, fun readings => ⟨hRun.2 readings, ?_⟩⟩
  rw [defuzzify, defuzzify, hRun.2 readings, settings_withRules]

end Controller

namespace WaterHeater

/-- A rule for each term of the water: hot water allows either power. -/
def plainRules : List Rule :=
  [Antecedent.implies (.about ⟨"Water", "Cold"⟩) ⟨"Power", "High"⟩,
   Antecedent.implies (.about ⟨"Water", "Warm"⟩) ⟨"Power", "High"⟩,
   (Antecedent.implies (.about ⟨"Water", "Hot"⟩) ⟨"Power", "Low"⟩).andThen ⟨"Power", "High"⟩]

/-- The first two rules are joined, the third is divided, and what then comes first is said again. -/
def restatedRules : List Rule :=
  [Antecedent.implies (.or (.about ⟨"Water", "Cold"⟩) (.about ⟨"Water", "Warm"⟩)) ⟨"Power", "High"⟩,
   Antecedent.implies (.about ⟨"Water", "Hot"⟩) ⟨"Power", "Low"⟩,
   Antecedent.implies (.about ⟨"Water", "Hot"⟩) ⟨"Power", "High"⟩,
   Antecedent.implies (.or (.about ⟨"Water", "Cold"⟩) (.about ⟨"Water", "Warm"⟩)) ⟨"Power", "High"⟩]

theorem restates_plainRules : Relation.ReflTransGen Restates plainRules restatedRules := by
  have hJoin := Restates.join [] (plainRules.drop 2) (.about ⟨"Water", "Cold"⟩)
    (.about ⟨"Water", "Warm"⟩) ⟨"Power", "High"⟩ []
  have hDivide := Restates.divide (restatedRules.take 1) [] (.about ⟨"Water", "Hot"⟩)
    ⟨"Power", "Low"⟩ [] ⟨"Power", "High"⟩ []
  have hAgain := Restates.again (restatedRules.take 3) _ List.mem_cons_self
  exact ((Relation.ReflTransGen.single hJoin).tail hDivide).tail hAgain

/-- The water heater under these rules. -/
def plain : Controller := (controller .initial).withRules plainRules

theorem reachable_plain : plain.Reachable := by
  apply (reachable .initial).withRules
  intro r hr
  simp only [plainRules, List.mem_cons, List.not_mem_nil, or_false] at hr
  obtain rfl | rfl | rfl := hr <;> rfl

end WaterHeater

theorem Controller.restated_waterHeater :
    WaterHeater.plain.Reachable ∧
    Relation.ReflTransGen Restates WaterHeater.plain.rules WaterHeater.restatedRules ∧
    (WaterHeater.plain.withRules WaterHeater.restatedRules).defuzzify [] =
      WaterHeater.plain.defuzzify [] ∧
    (WaterHeater.plain.withRules WaterHeater.restatedRules).aggregate (WaterHeater.readings 65.0) =
      WaterHeater.plain.aggregate (WaterHeater.readings 65.0) ∧
    (WaterHeater.plain.withRules WaterHeater.restatedRules).defuzzify (WaterHeater.readings 65.0) =
      WaterHeater.plain.defuzzify (WaterHeater.readings 65.0) := by
  have hReachable := WaterHeater.reachable_plain
  have hRestates := WaterHeater.restates_plainRules
  obtain ⟨-, hSame⟩ := restated_of_reachable hReachable hRestates
  exact ⟨hReachable, hRestates, (hSame _).2, hSame _⟩

end FuzzyControl
