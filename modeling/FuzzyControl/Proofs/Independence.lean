import FuzzyControl.Proofs.Admission
import FuzzyControl.Proofs.Evaluation
import FuzzyControl.Proofs.Registration

/-! # Settings are kept apart

An operation touches one thing only: the variables and rules together, the strategy for all outputs, or
the strategy of one output. What becomes of that thing depends on nothing else (`Owned`), so that a run
leaves in each of them what the operations on it alone would have left, and those may be mixed in any
way. Evaluation reads the settings last, when the set of an output is there: then a strategy chooses the
number, but not whether there is one.
-/
namespace FuzzyControl

set_option autoImplicit false

/-- What an operation touches. -/
inductive Target where
  | model
  | strategy
  | override (output : String)
  deriving DecidableEq

namespace Operation

def target : Operation → Target
  | .addVariable _ | .addVariables _ | .addRule _ | .addRules _ => .model
  | .setStrategy _ => .strategy
  | .setOutputStrategy output _ => .override output

def touching (target : Target) (ops : List Operation) : List Operation :=
  ops.filter fun op => op.target = target

end Operation

theorem OutputSet.fault?_defuzzify (s : OutputSet) (strategy : Strategy) :
    fault? (s.defuzzify strategy) =
      if s.total ≤ 0.0 then some (.noApplicableRule s.output) else none := by
  rw [OutputSet.defuzzify]
  split_ifs <;> rfl

theorem Table.lookup?_map {α β : Type} (key : α → String) (f : α → β) (name : String) (as : List α) :
    lookup? name (as.map fun a => (key a, f a)) = (as.find? fun a => key a == name).map f := by
  induction as with
  | nil => rfl
  | cons a as ih =>
    rw [List.map_cons, lookup?, List.find?_cons, ih]
    by_cases h : key a = name
    · simp [h]
    · simp [beq_false_of_ne h, h]

namespace Controller

def withSettings (c : Controller) (settings : Settings) : Controller := { c with settings }

/-- The set of an output, if the controller has that output. -/
def setOf? (c : Controller) (readings : Readings) (output : String) :
    Except Fault (Option OutputSet) := do
  let sets ← c.aggregate readings
  pure (sets.find? fun s => s.output == output)

/-- The number of an output or the fault in place of it, if the controller has that output. -/
def entryOf? (c : Controller) (readings : Readings) (output : String) :
    Except Fault (Option (Except Fault Float)) := do
  let entries ← c.defuzzify readings
  pure (Table.lookup? output entries)

section

variable (c : Controller) (settings : Settings) (readings : Readings) (output : String)

@[simp] theorem firingStrengths_withSettings :
    (c.withSettings settings).firingStrengths readings = c.firingStrengths readings := rfl

@[simp] theorem aggregate_withSettings :
    (c.withSettings settings).aggregate readings = c.aggregate readings := rfl

@[simp] theorem setOf?_withSettings :
    (c.withSettings settings).setOf? readings output = c.setOf? readings output := rfl

theorem entryOf?_eq :
    c.entryOf? readings output =
      (c.setOf? readings output).map
        (Option.map fun s => s.defuzzify (c.settings.strategyFor output)) := by
  rw [entryOf?, defuzzify, setOf?]
  cases c.aggregate readings with
  | error f => rfl
  | ok sets =>
    have hFound : Table.lookup? output
          (sets.map fun s => (s.output, s.defuzzify (c.settings.strategyFor s.output))) =
        (sets.find? fun s => s.output == output).map fun s =>
          s.defuzzify (c.settings.strategyFor output) := by
      rw [Table.lookup?_map]
      apply Option.map_congr
      intro s hs
      have hOutput : s.output = output := by simpa using List.find?_some hs
      rw [hOutput]
    exact congrArg Except.ok hFound

/-- An output has no number exactly if its set has no strength, whatever the strategy. -/
theorem faults_eq :
    (c.entryOf? readings output).map (Option.map fault?) =
      (c.setOf? readings output).map (Option.map fun s =>
        if s.total ≤ 0.0 then some (.noApplicableRule s.output) else none) := by
  rw [entryOf?_eq]
  cases c.setOf? readings output with
  | error f => rfl
  | ok found =>
    cases found with
    | none => rfl
    | some s => exact congrArg (fun f => Except.ok (some f)) (s.fault?_defuzzify _)

end

section

variable (c : Controller) (readings : Readings)

theorem entryOf?_withSettings (settings : Settings) (output : String) :
    (c.withSettings settings).entryOf? readings output =
      (c.setOf? readings output).map
        (Option.map fun s => s.defuzzify (settings.strategyFor output)) :=
  entryOf?_eq (c.withSettings settings) readings output

theorem entryOf?_withSettings_of_strategyFor_eq {settings : Settings} {output : String}
    (h : settings.strategyFor output = c.settings.strategyFor output) :
    (c.withSettings settings).entryOf? readings output = c.entryOf? readings output := by
  rw [entryOf?_withSettings, h, entryOf?_eq]

theorem entryOf?_setOutputStrategy_self (output : String) (strategy : Strategy) :
    (c.setOutputStrategy output strategy).entryOf? readings output =
      (c.setOf? readings output).map (Option.map fun s => s.defuzzify strategy) := by
  have h := c.entryOf?_withSettings readings (c.settings.setOutputStrategy output strategy) output
  rwa [Settings.strategyFor_setOutputStrategy_self] at h

theorem entryOf?_setOutputStrategy_of_ne {output other : String} (h : other ≠ output)
    (strategy : Strategy) :
    (c.setOutputStrategy output strategy).entryOf? readings other = c.entryOf? readings other :=
  c.entryOf?_withSettings_of_strategyFor_eq readings
    (c.settings.strategyFor_setOutputStrategy_of_ne h strategy)

theorem entryOf?_setStrategy_of_override {output : String} {own : Strategy}
    (h : c.settings.overrides.find? output = some own) (strategy : Strategy) :
    (c.setStrategy strategy).entryOf? readings output = c.entryOf? readings output := by
  apply c.entryOf?_withSettings_of_strategyFor_eq readings
  rw [Settings.strategyFor_setStrategy, Settings.strategyFor, h, Option.getD_some, Option.getD_some]

theorem entryOf?_setStrategy_of_none {output : String}
    (h : c.settings.overrides.find? output = none) (strategy : Strategy) :
    (c.setStrategy strategy).entryOf? readings output =
      (c.setOf? readings output).map (Option.map fun s => s.defuzzify strategy) := by
  have hEntry := c.entryOf?_withSettings readings (c.settings.setStrategy strategy) output
  rwa [Settings.strategyFor_setStrategy, h, Option.getD_none] at hEntry

end

section

variable (c : Controller) (settings : Settings)

theorem hasAlike_withSettings : (c.withSettings settings).hasAlike = c.hasAlike := rfl

theorem addVariable_withSettings (v : Variable) :
    (c.withSettings settings).addVariable v = (c.addVariable v).map (·.withSettings settings) := by
  rw [addVariable, addVariable, hasAlike_withSettings]
  split_ifs <;> rfl

theorem addVariables_withSettings (vs : List Variable) :
    ((c.withSettings settings).addVariables vs).1 = (c.addVariables vs).1.withSettings settings := by
  induction vs generalizing c with
  | nil => rfl
  | cons v vs ih =>
    rw [addVariables, addVariables, addVariable_withSettings]
    cases c.addVariable v with
    | error f => rfl
    | ok d => exact ih d

theorem validate_withSettings : (c.withSettings settings).validate = c.validate :=
  funext fun r => validate_eq_of_vars_eq rfl r

theorem addRule_withSettings (r : Rule) :
    (c.withSettings settings).addRule r = (c.addRule r).map (·.withSettings settings) := by
  rw [addRule, addRule, validate_withSettings]
  cases c.validate r <;> rfl

theorem admitRules_withSettings (rs : List Rule) :
    ((c.withSettings settings).admitRules rs).1 = (c.admitRules rs).1.withSettings settings := by
  rw [admitRules_eq, admitRules_eq, addRules_eq, addRules_eq, validate_withSettings]
  cases rs.forM c.validate <;> rfl

theorem getD_map_withSettings (x : Except Fault Controller) :
    (x.map (·.withSettings settings)).toOption.getD (c.withSettings settings) =
      (x.toOption.getD c).withSettings settings := by
  cases x <;> rfl

/-- The variables and rules become the same under any settings. -/
theorem perform_withSettings {op : Operation} (h : op.target = .model) :
    (c.withSettings settings).perform op = (c.perform op).withSettings settings := by
  cases op with
  | addVariable v =>
    rw [perform, perform, addVariable_withSettings, getD_map_withSettings]
  | addVariables vs => exact c.addVariables_withSettings settings vs
  | addRule r =>
    rw [perform, perform, addRule_withSettings, getD_map_withSettings]
  | addRules rs => exact c.admitRules_withSettings settings rs
  | setStrategy strategy => cases h
  | setOutputStrategy output strategy => cases h

theorem withSettings_perform {op : Operation} (h : op.target ≠ .model) :
    (c.perform op).withSettings settings = c.withSettings settings := by
  cases op with
  | addVariable v => exact absurd rfl h
  | addVariables vs => exact absurd rfl h
  | addRule r => exact absurd rfl h
  | addRules rs => exact absurd rfl h
  | setStrategy strategy => rfl
  | setOutputStrategy output strategy => rfl

end

theorem settings_perform (c : Controller) {op : Operation} (h : op.target = .model) :
    (c.perform op).settings = c.settings := by
  have hSame : c.perform op = (c.perform op).withSettings c.settings :=
    c.perform_withSettings c.settings h
  calc
    (c.perform op).settings = ((c.perform op).withSettings c.settings).settings := by rw [← hSame]
    _ = c.settings := rfl

theorem reachable_perform {c : Controller} (hc : c.Reachable) (op : Operation) :
    (c.perform op).Reachable := by
  obtain ⟨settings, ops, rfl⟩ := hc
  exact ⟨settings, ops ++ [op], List.foldl_append⟩

theorem Reachable.withSettings {c : Controller} (hc : c.Reachable) (settings : Settings) :
    (c.withSettings settings).Reachable := by
  have hStep : ∀ (d : Controller) op, (d.withSettings settings).Reachable →
      ((d.perform op).withSettings settings).Reachable := by
    intro d op hd
    by_cases h : op.target = .model
    · rw [← d.perform_withSettings settings h]
      exact reachable_perform hd op
    · rwa [d.withSettings_perform settings h]
  exact hc.induct (fun _ => ⟨settings, [], rfl⟩) hStep

/-- A part of a controller that is changed by the operations on one target only, and by these in a way
that depends on nothing but the part. -/
structure Owned {α : Type} (part : Controller → α) (target : Target) : Prop where
  own : ∀ c d op, op.target = target → part c = part d → part (c.perform op) = part (d.perform op)
  kept : ∀ c op, op.target ≠ target → part (c.perform op) = part c

theorem owned_model : Owned (fun c => c.withSettings .initial) .model where
  own c d op h hPart := by
    rw [← c.perform_withSettings _ h, ← d.perform_withSettings _ h, hPart]
  kept c op h := c.withSettings_perform .initial h

theorem owned_strategy : Owned (fun c => c.settings.strategy) .strategy where
  own c d op h hPart := by
    cases op <;> cases h
    rfl
  kept c op h := by
    cases op with
    | setStrategy strategy => exact absurd rfl h
    | setOutputStrategy output strategy => rfl
    | _ =>
      rw [settings_perform]
      rfl

theorem owned_override (output : String) :
    Owned (fun c => c.settings.overrides.find? output) (.override output) where
  own c d op h hPart := by
    cases op <;> cases h
    exact (Table.find?_insert_self _ _ _).trans (Table.find?_insert_self _ _ _).symm
  kept c op h := by
    cases op with
    | setStrategy strategy => rfl
    | setOutputStrategy other strategy =>
      have hNe : output ≠ other := by
        rintro rfl
        exact h rfl
      exact Table.find?_insert_of_ne _ hNe _
    | _ =>
      rw [settings_perform]
      rfl

section

variable {α : Type} {part : Controller → α} {target : Target} (hOwned : Owned part target)

include hOwned

theorem Owned.run {c d : Controller} (hPart : part c = part d) (ops : List Operation) :
    part (c.run ops) = part (d.run (Operation.touching target ops)) := by
  induction ops generalizing c d with
  | nil => exact hPart
  | cons op ops ih =>
    -- an operation on the target is a step of both runs, any other of the first one only
    by_cases h : op.target = target
    · rw [Operation.touching, List.filter_cons_of_pos (by simpa using h)]
      exact ih (hOwned.own c d op h hPart)
    · rw [Operation.touching, List.filter_cons_of_neg (by simpa using h)]
      exact ih ((hOwned.kept c op h).trans hPart)

theorem Owned.run_congr (c : Controller) {ops ops' : List Operation}
    (h : Operation.touching target ops' = Operation.touching target ops) :
    part (c.run ops') = part (c.run ops) := by
  rw [hOwned.run rfl ops', hOwned.run rfl ops, h]

end

theorem eq_of_parts_eq {c d : Controller} (hModel : c.withSettings .initial = d.withSettings .initial)
    (hStrategy : c.settings.strategy = d.settings.strategy)
    (hOverrides : ∀ output,
      c.settings.overrides.find? output = d.settings.overrides.find? output) : c = d := by
  have hSettings : c.settings = d.settings :=
    congrArg₂ Settings.mk hStrategy (Table.ext_find? hOverrides)
  calc
    c = (c.withSettings .initial).withSettings c.settings := rfl
    _ = (d.withSettings .initial).withSettings d.settings := by rw [hModel, hSettings]
    _ = d := rfl

theorem run_eq_of_touching_eq (c : Controller) {ops ops' : List Operation}
    (h : ∀ target, Operation.touching target ops' = Operation.touching target ops) :
    c.run ops' = c.run ops := by
  apply eq_of_parts_eq
  · exact owned_model.run_congr c (h _)
  · exact owned_strategy.run_congr c (h _)
  · exact fun output => (owned_override output).run_congr c (h _)

/-- Whatever operations built a controller: no settings change the strengths of its rules, the sets of
its outputs or which outputs have no number. The entry of an output is its set reduced by the strategy
for it. The strategy of one output changes the entry of that output only, the strategy for all outputs
those of the outputs that have none of their own. And operations may be mixed in any way, as long as
those on one target stay in their order. -/
theorem settings_of_reachable {c : Controller} (hc : c.Reachable) (readings : Readings) :
    (∀ settings, (c.withSettings settings).Reachable ∧
      (c.withSettings settings).firingStrengths readings = c.firingStrengths readings ∧
      (c.withSettings settings).aggregate readings = c.aggregate readings ∧
      ∀ output, ((c.withSettings settings).entryOf? readings output).map (Option.map fault?) =
        (c.entryOf? readings output).map (Option.map fault?)) ∧
    (c.outputs.Pairwise (· < ·) ∧
      (∀ entries, c.defuzzify readings = .ok entries → entries.map Prod.fst = c.outputs) ∧
      ∀ output, c.entryOf? readings output = (c.setOf? readings output).map
        (Option.map fun s => s.defuzzify (c.settings.strategyFor output))) ∧
    (∀ output strategy,
      (c.setOutputStrategy output strategy).entryOf? readings output =
          (c.setOf? readings output).map (Option.map fun s => s.defuzzify strategy) ∧
        ∀ other, other ≠ output →
          (c.setOutputStrategy output strategy).entryOf? readings other = c.entryOf? readings other) ∧
    (∀ strategy output,
      (∀ own, c.settings.overrides.find? output = some own →
        (c.setStrategy strategy).entryOf? readings output = c.entryOf? readings output) ∧
      (c.settings.overrides.find? output = none →
        (c.setStrategy strategy).entryOf? readings output =
          (c.setOf? readings output).map (Option.map fun s => s.defuzzify strategy))) ∧
    (∀ ops ops',
      (∀ target, Operation.touching target ops' = Operation.touching target ops) →
        c.run ops' = c.run ops) := by
  refine ⟨?_, ⟨Table.pairwise_names _, ?_, c.entryOf?_eq readings⟩, ?_, ?_, ?_⟩
  · intro settings
    refine ⟨hc.withSettings settings, c.firingStrengths_withSettings settings readings,
      c.aggregate_withSettings settings readings, ?_⟩
    intro output
    rw [faults_eq, faults_eq, setOf?_withSettings]
  · intro entries h
    obtain ⟨cs, -, rfl⟩ := defuzzify_eq_ok_iff.mp h
    simp [Function.comp_def]
  · intro output strategy
    exact ⟨c.entryOf?_setOutputStrategy_self readings output strategy,
      fun _ hOther => c.entryOf?_setOutputStrategy_of_ne readings hOther strategy⟩
  · intro strategy output
    exact ⟨fun _ hOwn => c.entryOf?_setStrategy_of_override readings hOwn strategy,
      fun hNone => c.entryOf?_setStrategy_of_none readings hNone strategy⟩
  · exact fun _ _ h => c.run_eq_of_touching_eq h

/-- The strategy of the power goes before a later one for all outputs, and the controller may be built
around both. -/
theorem settings_waterHeater :
    ((WaterHeater.controller .initial).setOutputStrategy "Power" .middleOfMaximum).Reachable ∧
    (∀ readings,
      (((WaterHeater.controller .initial).setOutputStrategy "Power" .middleOfMaximum).setStrategy
          .centroid).entryOf? readings "Power" =
        ((WaterHeater.controller .initial).setOutputStrategy "Power" .middleOfMaximum).entryOf?
          readings "Power") ∧
    (∀ readings,
      ((WaterHeater.controller .initial).setOutputStrategy "Fan" .middleOfMaximum).entryOf?
          readings "Power" =
        (WaterHeater.controller .initial).entryOf? readings "Power") ∧
    (new .initial).run
        [.setOutputStrategy "Power" .middleOfMaximum,
          .addVariables [WaterHeater.water, WaterHeater.power], .setStrategy .centroid,
          .addRules WaterHeater.rules] =
      (new .initial).run
        [.addVariables [WaterHeater.water, WaterHeater.power], .addRules WaterHeater.rules,
          .setStrategy .centroid, .setOutputStrategy "Power" .middleOfMaximum] := by
  have hReachable := WaterHeater.reachable .initial
  have hPower := reachable_perform hReachable (.setOutputStrategy "Power" .middleOfMaximum)
  refine ⟨hPower, ?_, ?_, ?_⟩
  · intro readings
    obtain ⟨-, -, -, hGlobal, -⟩ := settings_of_reachable hPower readings
    exact (hGlobal .centroid "Power").1 .middleOfMaximum rfl
  · intro readings
    obtain ⟨-, -, hOne, -, -⟩ := settings_of_reachable hReachable readings
    exact (hOne "Fan" .middleOfMaximum).2 "Power" (by decide)
  · obtain ⟨-, -, -, -, hMix⟩ := settings_of_reachable ⟨.initial, [], rfl⟩ []
    apply hMix
    intro target
    cases target <;> rfl

end Controller

end FuzzyControl
