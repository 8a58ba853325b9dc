import FuzzyControl.Proofs.Aggregation
import FuzzyControl.Proofs.Registration
import FuzzyControl.Proofs.Regrouping

/-! # The same variables under other rules

What two controllers with the same variables and settings have in common is decided by their rules. A
controller that was built may be given any rules that it would admit (`Reachable.withRules`). Once all
rules can be evaluated, the set of an output is what each rule gives it, merged (`collectedSet`), so that
the sets are compared by comparing what is given.
-/
namespace FuzzyControl.Controller

set_option autoImplicit false

def withRules (c : Controller) (rules : List Rule) : Controller := { c with rules }

section

variable (c : Controller) (rules : List Rule)

@[simp] theorem rules_withRules : (c.withRules rules).rules = rules := rfl

@[simp] theorem settings_withRules : (c.withRules rules).settings = c.settings := rfl

end

theorem Reachable.validate {c : Controller} (hc : c.Reachable) :
    ∀ r ∈ c.rules, c.validate r = .ok () := by
  have hOwn : ∀ r ∈ c.rules, r.antecedent.foreign? = none := by
    refine hc.induct (P := fun c => ∀ r ∈ c.rules, r.antecedent.foreign? = none) ?_ ?_
    · intro settings r hr
      cases hr
    intro c op ih
    obtain ⟨vs, -, hEq⟩ | ⟨rs, hValid, hEq⟩ | ⟨settings, hEq⟩ := perform_cases c op <;> rw [hEq]
    · exact ih
    · intro r hr
      obtain hr | hr := List.mem_append.mp hr
      · exact ih r hr
      · exact (validate_eq_ok_iff.mp (hValid r hr)).1
    · exact ih
  intro r hr
  exact validate_eq_ok_iff.mpr ⟨hOwn r hr, hc.wellFormed.declared r hr⟩

/-- All variables that were registered one way or another can be registered at once. -/
theorem Reachable.enter_entries {c : Controller} (hc : c.Reachable) :
    (new c.settings).Fresh (c.vars.entries.map Prod.snd) ∧
      (new c.settings).enter (c.vars.entries.map Prod.snd) = c.withRules [] := by
  have hNamed : ∀ e ∈ c.vars.entries, (e.2.name, e.2) = e := by
    intro e he
    have hName := hc.wellFormed.named e.1 e.2 (Table.find?_eq_some_iff.mpr he)
    exact congrArg (·, e.2) hName
  have hFresh : (new c.settings).Fresh (c.vars.entries.map Prod.snd) := by
    constructor
    · have hDistinct := hc.distinct
      rw [Distinct, Table.names, List.pairwise_map] at hDistinct
      rw [List.pairwise_map]
      refine hDistinct.imp_of_mem ?_
      intro d e hd he hNe
      have hd' : d.2.name = d.1 := congrArg Prod.fst (hNamed d hd)
      have he' : e.2.name = e.1 := congrArg Prod.fst (hNamed e he)
      rwa [hd', he']
    · intro v hv name hName
      cases hName
  refine ⟨hFresh, ?_⟩
  have hVars : ((new c.settings).enter (c.vars.entries.map Prod.snd)).vars = c.vars := by
    apply Table.ext_mem
    intro e
    rw [hFresh.mem_entries_iff]
    constructor
    · rintro (hNone | ⟨v, hv, rfl⟩)
      · cases hNone
      · obtain ⟨d, hd, rfl⟩ := List.mem_map.mp hv
        rwa [hNamed d hd]
    · intro he
      exact .inr ⟨e.2, List.mem_map_of_mem he, hNamed e he⟩
  exact congrArg (fun t => (⟨t, [], c.settings⟩ : Controller)) hVars

theorem Reachable.withRules {c : Controller} (hc : c.Reachable) {rules : List Rule}
    (h : ∀ r ∈ rules, c.validate r = .ok ()) : (c.withRules rules).Reachable := by
  obtain ⟨hFresh, hEnter⟩ := hc.enter_entries
  have hRules : (c.withRules []).admitRules rules = (c.withRules rules, none) :=
    admitRules_of_valid h
  refine ⟨c.settings, [.addVariables (c.vars.entries.map Prod.snd), .addRules rules], ?_⟩
  simp only [run, List.foldl_cons, List.foldl_nil, perform, hFresh.addVariables_eq, hEnter, hRules]

variable {c : Controller} {readings : Readings} {output : String}

/-- The degree of a condition, and zero where it cannot be evaluated. -/
def strengthOf (c : Controller) (readings : Readings) (e : Antecedent) : Degree :=
  (e.evaluate c.vars readings).toOption.getD default

theorem strengthOf_eq {e : Antecedent} {a : Degree} (h : e.evaluate c.vars readings = .ok a) :
    c.strengthOf readings e = a := by
  rw [strengthOf, h]
  rfl

/-- The contributions of one rule to an output: none, unless it fires. -/
def given (c : Controller) (readings : Readings) (output : String) (r : Rule) : List Contribution :=
  if (c.strengthOf readings r.antecedent).isPositive then
    (r.consequents.filter fun ref => ref.owner == output).map fun ref =>
      c.contributionOf ⟨ref, c.strengthOf readings r.antecedent⟩
  else []

/-- All that the rules give to an output. -/
def collected (c : Controller) (readings : Readings) (output : String) : List Contribution :=
  c.rules.flatMap (c.given readings output)

def collectedSet (c : Controller) (readings : Readings) (output : String) : OutputSet :=
  ⟨output, OutputSet.mergeAll (c.collected readings output)⟩

theorem mem_given_iff {r : Rule} {k : Contribution} :
    k ∈ c.given readings output r ↔ (c.strengthOf readings r.antecedent).isPositive = true ∧
      ∃ ref ∈ r.consequents, ref.owner = output ∧
        c.contributionOf ⟨ref, c.strengthOf readings r.antecedent⟩ = k := by
  rw [given]
  split_ifs with hPositive
  · simp only [hPositive, true_and, List.mem_map, List.mem_filter, beq_iff_eq, and_assoc]
  · simp [hPositive]

theorem map_term_given (c : Controller) (readings : Readings) (output : String) (r : Rule) :
    (c.given readings output r).map Contribution.term =
      if (c.strengthOf readings r.antecedent).isPositive then
        (r.consequents.filter fun ref => ref.owner == output).map TermRef.term
      else [] := by
  rw [given]
  split_ifs
  · rw [List.map_map]
    rfl
  · rfl

theorem received_eq_collected :
    c.received (c.rules.map fun r => c.strengthOf readings r.antecedent) output =
      c.collected readings output := by
  rw [received, firing, consequences, ← List.map_prod_left_eq_zip, List.flatMap_map,
    List.filter_flatMap, List.map_flatMap, collected]
  congr 1
  funext r
  rw [List.filter_map, given]
  split_ifs with hPositive
  · simp only [Function.comp_def, hPositive, Bool.and_true, List.map_map]
  · simp [Function.comp_def, hPositive]

namespace WellFormed

variable (hc : c.WellFormed) (h : c.unread? readings = none)

include hc h

theorem evaluate_eq {r : Rule} (hr : r ∈ c.rules) :
    r.antecedent.evaluate c.vars readings = .ok (c.strengthOf readings r.antecedent) := by
  have hTotal : fault? (r.antecedent.evaluate c.vars readings) = none := by
    rw [hc.fault?_evaluate readings hr, Option.map_eq_none_iff, List.find?_eq_none]
    intro a ha
    rw [unread, Bool.not_eq_true, Option.isNone_eq_false_iff]
    exact unread?_eq_none_iff.mp h r hr a ha
  obtain ⟨a, ha⟩ := fault?_eq_none_iff.mp hTotal
  rw [strengthOf_eq ha, ha]

theorem firingStrengths_eq :
    c.firingStrengths readings = .ok (c.rules.map fun r => c.strengthOf readings r.antecedent) :=
  mapM_eq_ok_map fun _ hr => hc.evaluate_eq h hr

theorem proper_strengthOf {r : Rule} (hr : r ∈ c.rules) :
    (c.strengthOf readings r.antecedent).Proper :=
  Antecedent.proper_evaluate (hc.evaluate_eq h hr)

theorem counted (output : String) :
    OutputSet.Counted (fun term => c.shapeOf ⟨output, term⟩) (c.collected readings output) := by
  have hGiven : ∀ k ∈ c.collected readings output, ∃ r ∈ c.rules,
      k.strength = c.strengthOf readings r.antecedent ∧
        (c.strengthOf readings r.antecedent).isPositive = true ∧ k.shape = c.shapeOf ⟨output, k.term⟩ := by
    intro k hk
    obtain ⟨r, hr, hk⟩ := List.mem_flatMap.mp hk
    obtain ⟨hPositive, ref, hRef, rfl, rfl⟩ := mem_given_iff.mp hk
    exact ⟨r, hr, rfl, hPositive, rfl⟩
  constructor
  · intro k hk
    obtain ⟨r, hr, hStrength, -, -⟩ := hGiven k hk
    rw [hStrength]
    exact hc.proper_strengthOf h hr
  · intro k hk
    obtain ⟨r, hr, hStrength, hPositive, -⟩ := hGiven k hk
    rw [hStrength]
    exact (hc.proper_strengthOf h hr).defined.isPositive_iff.mp hPositive
  · intro k hk
    obtain ⟨-, -, -, -, hShape⟩ := hGiven k hk
    exact hShape

theorem merged_collected (output : String) :
    OutputSet.Merged (c.collected readings output) (c.collectedSet readings output).contributions :=
  OutputSet.merged_mergeAll fun k hk => ((hc.counted h output).proper k hk).defined

theorem counted_collectedSet (output : String) :
    OutputSet.Counted (fun term => c.shapeOf ⟨output, term⟩)
      (c.collectedSet readings output).contributions :=
  (hc.merged_collected h output).counted (hc.counted h output)

end WellFormed

section

variable (hc : c.WellFormed)

include hc

theorem aggregate_eq_ok_iff_collected {sets : List OutputSet} :
    c.aggregate readings = .ok sets ↔
      c.unread? readings = none ∧ sets = c.outputs.map (c.collectedSet readings) := by
  have hOk : c.unread? readings = none →
      c.aggregate readings = .ok (c.outputs.map (c.collectedSet readings)) := by
    intro h
    rw [hc.aggregate_eq (hc.firingStrengths_eq h)]
    refine congrArg Except.ok (List.map_congr_left fun output _ => ?_)
    rw [setOf, received_eq_collected, collectedSet]
  constructor
  · intro hSets
    have hRead : c.unread? readings = none := by
      rw [← Option.map_eq_none_iff (f := fun a => Fault.noReading a.owner),
        ← hc.fault?_aggregate, hSets]
      rfl
    rw [hOk hRead] at hSets
    exact ⟨hRead, (Except.ok.inj hSets).symm⟩
  · rintro ⟨hRead, rfl⟩
    exact hOk hRead

theorem defuzzify_eq_ok_iff_collected {entries : List (String × Except Fault Float)} :
    c.defuzzify readings = .ok entries ↔ c.unread? readings = none ∧
      entries = c.outputs.map fun output =>
        (output, (c.collectedSet readings output).defuzzify (c.settings.strategyFor output)) := by
  rw [defuzzify, bind_eq_ok_iff]
  simp only [aggregate_eq_ok_iff_collected hc]
  constructor
  · rintro ⟨sets, ⟨hRead, rfl⟩, hEntries⟩
    cases hEntries
    exact ⟨hRead, List.map_map⟩
  · rintro ⟨hRead, rfl⟩
    exact ⟨_, ⟨hRead, rfl⟩, congrArg Except.ok List.map_map⟩

theorem exists_aggregate_iff :
    (∃ sets, c.aggregate readings = .ok sets) ↔ c.unread? readings = none := by
  simp only [aggregate_eq_ok_iff_collected hc, exists_and_left, exists_eq, and_true]

theorem exists_defuzzify_iff :
    (∃ entries, c.defuzzify readings = .ok entries) ↔ c.unread? readings = none := by
  simp only [defuzzify_eq_ok_iff_collected hc, exists_and_left, exists_eq, and_true]

end

theorem outputs_eq_of_mem_iff {c d : Controller}
    (h : ∀ output, output ∈ c.outputs ↔ output ∈ d.outputs) : c.outputs = d.outputs :=
  (Table.pairwise_names _).eq_of_mem_iff (Table.pairwise_names _) h

end FuzzyControl.Controller
