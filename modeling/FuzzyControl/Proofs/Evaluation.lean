import FuzzyControl.Proofs.Building
import FuzzyControl.WaterHeater

/-! # Evaluation fails only for want of a reading

Since every rule of a controller has been checked, an evaluation can only fail because some statement
is about a variable without a reading. `unread?` is the first such statement, and all of the firing
strengths, the aggregated sets and the numbers fail as it says, or not at all.
-/
namespace FuzzyControl

set_option autoImplicit false

theorem OutputSet.defuzzify_eq_or (s : OutputSet) (strategy : Strategy) :
    (∃ x, s.defuzzify strategy = .ok x) ∨
      s.defuzzify strategy = .error (.noApplicableRule s.output) := by
  rw [OutputSet.defuzzify]
  split
  · exact .inr rfl
  · exact .inl ⟨_, rfl⟩

namespace Controller

def statements (c : Controller) : List TermRef := c.rules.flatMap fun r => r.antecedent.atoms

def unread (readings : Readings) (a : TermRef) : Bool := (readings.value? a.owner).isNone

/-- The first statement that cannot be evaluated. -/
def unread? (c : Controller) (readings : Readings) : Option TermRef :=
  c.statements.find? (unread readings)

theorem fault?_atomDegree {c : Controller} {a : TermRef} (h : c.Declares a) (readings : Readings) :
    fault? (Antecedent.atomDegree c.vars readings a) =
      (Option.guard (unread readings) a).map fun a => .noReading a.owner := by
  obtain ⟨shape, hShape⟩ := h
  obtain ⟨v, hFind, hTerm⟩ := resolve_eq_ok_iff.mp hShape
  rw [Antecedent.atomDegree, hFind]
  dsimp only
  rw [hTerm]
  cases hValue : readings.value? a.owner <;> simp [Option.guard, unread, hValue]

namespace WellFormed

variable {c : Controller} (hc : c.WellFormed) (readings : Readings)

include hc

theorem fault?_evaluate {r : Rule} (hr : r ∈ c.rules) :
    fault? (r.antecedent.evaluate c.vars readings) =
      (r.antecedent.atoms.find? (unread readings)).map fun a => .noReading a.owner := by
  have hAtom : ∀ a ∈ r.antecedent.atoms, fault? (Antecedent.atomDegree c.vars readings a) =
      (Option.guard (unread readings) a).map fun a => .noReading a.owner := by
    intro a ha
    exact fault?_atomDegree (hc.declared r hr a (List.mem_append_left _ ha)) readings
  rw [FuzzyControl.fault?_evaluate, List.find?_eq_findSome?_guard, List.map_findSome?]
  exact findSome?_congr hAtom

/-- A computation that evaluates each rule in turn, and can fail in no other way, fails as the first
statement without a reading says. -/
theorem fault?_rules {α : Type} {g : Rule → Except Fault α}
    (h : ∀ r ∈ c.rules, fault? (g r) = fault? (r.antecedent.evaluate c.vars readings)) :
    fault? (c.rules.mapM g) = (c.unread? readings).map fun a => .noReading a.owner := by
  rw [fault?_mapM, unread?, statements, List.find?_flatMap, List.map_findSome?]
  exact findSome?_congr fun r hr => (h r hr).trans (hc.fault?_evaluate readings hr)

theorem fault?_firingStrengths :
    fault? (c.firingStrengths readings) =
      (c.unread? readings).map fun a => .noReading a.owner :=
  hc.fault?_rules readings fun _ _ => rfl

theorem fault?_conclude {r : Rule} (hr : r ∈ c.rules) (strength : Degree) :
    fault? (c.conclude r strength) = none := by
  rw [conclude]
  split
  · rw [fault?_mapM, List.findSome?_eq_none_iff]
    intro ref hRef
    obtain ⟨shape, hShape⟩ := hc.declared r hr ref (List.mem_append_right _ hRef)
    rw [hShape]
    rfl
  · rfl

theorem fault?_conclusions :
    fault? (c.conclusions readings) = (c.unread? readings).map fun a => .noReading a.owner := by
  rw [conclusions, fault?_map]
  apply hc.fault?_rules readings
  intro r hr
  exact fault?_bind_of_total fun strength _ => hc.fault?_conclude hr strength

theorem fault?_aggregate :
    fault? (c.aggregate readings) = (c.unread? readings).map fun a => .noReading a.owner := by
  rw [aggregate, fault?_map]
  exact hc.fault?_conclusions readings

theorem fault?_defuzzify :
    fault? (c.defuzzify readings) = (c.unread? readings).map fun a => .noReading a.owner := by
  rw [defuzzify, fault?_map]
  exact hc.fault?_aggregate readings

end WellFormed

theorem unread?_eq_none_iff {c : Controller} {readings : Readings} :
    c.unread? readings = none ↔
      ∀ r ∈ c.rules, ∀ a ∈ r.antecedent.atoms, (readings.value? a.owner).isSome := by
  rw [unread?, List.find?_eq_none, statements]
  simp only [List.mem_flatMap, forall_exists_index, and_imp, unread, Bool.not_eq_true,
    Option.isNone_eq_false_iff]
  exact ⟨fun h r hr a ha => h a r hr ha, fun h a r hr ha => h r hr a ha⟩

theorem defuzzify_eq_ok_iff {c : Controller} {readings : Readings}
    {entries : List (String × Except Fault Float)} :
    c.defuzzify readings = .ok entries ↔ ∃ cs, c.conclusions readings = .ok cs ∧
      entries = c.outputs.map fun output =>
        (output, (OutputSet.gather output cs).defuzzify (c.settings.strategyFor output)) := by
  rw [defuzzify, aggregate]
  cases h : c.conclusions readings with
  | error f => simp [bind, Except.bind]
  | ok cs =>
    simp [bind, Except.bind, pure, Except.pure, Function.comp_def, eq_comm]

/-- Whatever operations built a controller, its evaluation succeeds exactly if all statements of its
rules have readings, and otherwise reports the first that has none; each output then has a number or is
reported as one to which no rule applies. -/
theorem defuzzify_of_reachable {c : Controller} (hc : c.Reachable) (readings : Readings) :
    (∀ owner, c.defuzzify readings ≠ .error (.undeclaredVariable owner)) ∧
    (∀ owner term, c.defuzzify readings ≠ .error (.undeclaredTerm owner term)) ∧
    ((∃ entries, c.defuzzify readings = .ok entries) ↔
      ∀ r ∈ c.rules, ∀ a ∈ r.antecedent.atoms, (readings.value? a.owner).isSome) ∧
    (∀ fault, c.defuzzify readings = .error fault ↔
      ∃ a, c.unread? readings = some a ∧ fault = .noReading a.owner) ∧
    (∀ entries, c.defuzzify readings = .ok entries →
      entries.map Prod.fst = c.outputs ∧
        ∀ e ∈ entries, (∃ x, e.2 = .ok x) ∨ e.2 = .error (.noApplicableRule e.1)) := by
  have hFault := hc.wellFormed.fault?_defuzzify readings
  have hError : ∀ fault, c.defuzzify readings = .error fault ↔
      ∃ a, c.unread? readings = some a ∧ fault = .noReading a.owner := by
    intro fault
    rw [← fault?_eq_some_iff, hFault, Option.map_eq_some_iff]
    simp only [eq_comm]
  refine ⟨?_, ?_, ?_, hError, ?_⟩
  · intro owner h
    obtain ⟨a, _, hEq⟩ := (hError _).mp h
    cases hEq
  · intro owner term h
    obtain ⟨a, _, hEq⟩ := (hError _).mp h
    cases hEq
  · rw [← fault?_eq_none_iff, hFault, Option.map_eq_none_iff, unread?_eq_none_iff]
  · intro entries h
    obtain ⟨cs, _, rfl⟩ := defuzzify_eq_ok_iff.mp h
    constructor
    · simp [Function.comp_def]
    · intro e he
      obtain ⟨output, _, rfl⟩ := List.mem_map.mp he
      simpa using OutputSet.defuzzify_eq_or (OutputSet.gather output cs) (c.settings.strategyFor output)

theorem defuzzify_waterHeater :
    (WaterHeater.controller .initial).Reachable ∧
    (WaterHeater.controller .initial).defuzzify [] = .error (.noReading "Water") ∧
    ∃ entries,
      (WaterHeater.controller .initial).defuzzify (WaterHeater.readings 38.0) = .ok entries ∧
        entries.map Prod.fst = ["Power"] := by
  have hReachable := WaterHeater.reachable .initial
  obtain ⟨-, -, -, hError, -⟩ := defuzzify_of_reachable hReachable []
  obtain ⟨-, -, hSuccess, -, hEntries⟩ :=
    defuzzify_of_reachable hReachable (WaterHeater.readings 38.0)
  refine ⟨hReachable, (hError _).mpr ⟨⟨"Water", "Cold"⟩, by decide, rfl⟩, ?_⟩
  obtain ⟨entries, h⟩ := hSuccess.mpr (unread?_eq_none_iff.mp (by decide))
  exact ⟨entries, h, (hEntries entries h).1.trans (by decide)⟩

end Controller

end FuzzyControl
