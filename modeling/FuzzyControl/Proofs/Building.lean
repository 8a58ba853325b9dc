import FuzzyControl.Controller
import FuzzyControl.Proofs.FirstFault
import FuzzyControl.WaterHeater

/-! # Building controllers

A controller starts empty, with any settings, and is changed by operations in any order, some of which
may be refused. What is checked when a rule is added stays true afterwards: `WellFormed` holds of every
controller that can be reached, because a new variable never takes the name of one that is there.
-/
namespace FuzzyControl

set_option autoImplicit false

inductive Operation where
  | addVariable (v : Variable)
  | addVariables (vs : List Variable)
  | addRule (r : Rule)
  | addRules (rs : List Rule)
  | setStrategy (strategy : Strategy)
  | setOutputStrategy (output : String) (strategy : Strategy)

namespace Controller

/-- The controller that an operation leaves, also where it is refused. -/
def perform (c : Controller) : Operation → Controller
  | .addVariable v => (c.addVariable v).toOption.getD c
  | .addVariables vs => (c.addVariables vs).1
  | .addRule r => (c.addRule r).toOption.getD c
  | .addRules rs => (c.admitRules rs).1
  | .setStrategy strategy => c.setStrategy strategy
  | .setOutputStrategy output strategy => c.setOutputStrategy output strategy

def run (c : Controller) (ops : List Operation) : Controller := ops.foldl perform c

def Reachable (c : Controller) : Prop :=
  ∃ (settings : Settings) (ops : List Operation), (new settings).run ops = c

def Declares (c : Controller) (ref : TermRef) : Prop := ∃ shape, c.resolve ref = .ok shape

/-- Variables are kept under their own names, and all that the rules speak of is declared. -/
structure WellFormed (c : Controller) : Prop where
  named : ∀ name v, c.vars.find? name = some v → v.name = name
  declared : ∀ r ∈ c.rules, ∀ ref ∈ r.antecedent.atoms ++ r.consequents, c.Declares ref

theorem hasAlike_of_find? {c : Controller} {name : String} {v : Variable}
    (h : c.vars.find? name = some v) : c.hasAlike name = true := by
  have hName : name ∈ c.vars.names := by
    rw [Table.mem_names_iff, h]
    exact Option.some_ne_none v
  rw [hasAlike, List.any_eq_true]
  exact ⟨name, hName, beq_self_eq_true _⟩

theorem find?_addVariable {c d : Controller} {v w : Variable} {name : String}
    (h : c.addVariable v = .ok d) (hFind : c.vars.find? name = some w) :
    d.vars.find? name = some w := by
  obtain ⟨hNew, rfl⟩ := addVariable_eq_ok_iff.mp h
  have hNe : name ≠ v.name := by
    rintro rfl
    rw [hasAlike_of_find? hFind] at hNew
    cases hNew
  exact (Table.find?_insert_of_ne c.vars hNe v).trans hFind

theorem resolve_addVariable {c d : Controller} {v : Variable} {ref : TermRef} {shape : Shape}
    (h : c.addVariable v = .ok d) (hRef : c.resolve ref = .ok shape) : d.resolve ref = .ok shape := by
  obtain ⟨w, hFind, hShape⟩ := resolve_eq_ok_iff.mp hRef
  exact resolve_eq_ok_iff.mpr ⟨w, find?_addVariable h hFind, hShape⟩

theorem WellFormed.addVariable {c d : Controller} {v : Variable} (hc : c.WellFormed)
    (h : c.addVariable v = .ok d) : d.WellFormed := by
  obtain ⟨_, hEq⟩ := addVariable_eq_ok_iff.mp h
  constructor
  · intro name w hFind
    by_cases hName : name = v.name
    · subst hName
      rw [hEq, Table.find?_insert_self] at hFind
      cases hFind
      rfl
    · rw [hEq, Table.find?_insert_of_ne c.vars hName v] at hFind
      exact hc.named name w hFind
  · intro r hr ref hRef
    have hrOld : r ∈ c.rules := by rwa [hEq] at hr
    obtain ⟨shape, hShape⟩ := hc.declared r hrOld ref hRef
    exact ⟨shape, resolve_addVariable h hShape⟩

theorem WellFormed.addVariables {c : Controller} (hc : c.WellFormed) (vs : List Variable) :
    (c.addVariables vs).1.WellFormed := by
  induction vs generalizing c with
  | nil => exact hc
  | cons v vs ih =>
    rw [Controller.addVariables]
    cases h : c.addVariable v with
    | error f => exact hc
    | ok d => exact ih (hc.addVariable h)

theorem validate_eq_ok_iff {c : Controller} {r : Rule} :
    c.validate r = .ok () ↔ r.antecedent.foreign? = none ∧
      ∀ ref ∈ r.antecedent.atoms ++ r.consequents, c.Declares ref := by
  have hItem : ∀ ref : TermRef, (do let _ ← c.resolve ref : Except Fault Unit) = .ok () ↔
      c.Declares ref := by
    intro ref
    rw [Declares, ← fault?_unit_eq_none_iff, ← fault?_eq_none_iff]
    exact iff_of_eq (congrArg (· = none) (fault?_map (fun _ => ()) (c.resolve ref)))
  rw [validate]
  cases hForeign : r.antecedent.foreign? with
  | some ref => simp
  | none =>
    dsimp only
    rw [forM_eq_ok_iff]
    simp only [hItem, true_and]

theorem addRule_eq_ok_iff {c d : Controller} {r : Rule} :
    c.addRule r = .ok d ↔ c.validate r = .ok () ∧ d = { c with rules := c.rules ++ [r] } := by
  rw [addRule, bind_eq_ok_iff]
  constructor
  · rintro ⟨_, hValid, hAdd⟩
    cases hAdd
    exact ⟨hValid, rfl⟩
  · rintro ⟨hValid, rfl⟩
    exact ⟨(), hValid, rfl⟩

/-- A rule that has been added does not change which rules are refused. -/
theorem addInTurn_of_valid {c : Controller} {rs : List Rule} (h : ∀ r ∈ rs, c.validate r = .ok ()) :
    c.addInTurn rs = ({ c with rules := c.rules ++ rs }, none) := by
  induction rs generalizing c with
  | nil => rw [addInTurn, List.append_nil]
  | cons r rs ih =>
    have hRest : ∀ q ∈ rs, ({ c with rules := c.rules ++ [r] } : Controller).validate q = .ok () :=
      fun q hq => h q (List.mem_cons_of_mem _ hq)
    rw [addInTurn, addRule_eq_ok_iff.mpr ⟨h r List.mem_cons_self, rfl⟩]
    dsimp only
    rw [ih hRest, List.append_assoc, List.singleton_append]

theorem admitRules_of_valid {c : Controller} {rs : List Rule} (h : ∀ r ∈ rs, c.validate r = .ok ()) :
    c.admitRules rs = ({ c with rules := c.rules ++ rs }, none) := by
  rw [admitRules, forM_eq_ok_iff.mpr h]
  exact addInTurn_of_valid h

theorem admitRules_of_error {c : Controller} {rs : List Rule} {f : Fault}
    (h : rs.forM c.validate = .error f) : c.admitRules rs = (c, some f) := by
  rw [admitRules, h]

/-- What becomes of a controller that is given rules: all of them are added, or none. -/
theorem admitRules_cases (c : Controller) (rs : List Rule) :
    ∃ added, (∀ r ∈ added, c.validate r = .ok ()) ∧
      (c.admitRules rs).1 = { c with rules := c.rules ++ added } := by
  cases h : rs.forM c.validate with
  | ok _ =>
    have hValid := forM_eq_ok_iff.mp h
    exact ⟨rs, hValid, by rw [admitRules_of_valid hValid]⟩
  | error f =>
    refine ⟨[], ?_, ?_⟩
    · intro r hr
      cases hr
    · rw [admitRules_of_error h, List.append_nil]

theorem WellFormed.append {c : Controller} (hc : c.WellFormed) {rs : List Rule}
    (h : ∀ r ∈ rs, c.validate r = .ok ()) : { c with rules := c.rules ++ rs }.WellFormed := by
  refine ⟨hc.named, ?_⟩
  intro r hr
  obtain hr | hr := List.mem_append.mp hr
  · exact hc.declared r hr
  · exact (validate_eq_ok_iff.mp (h r hr)).2

theorem WellFormed.addRule {c d : Controller} {r : Rule} (hc : c.WellFormed)
    (h : c.addRule r = .ok d) : d.WellFormed := by
  obtain ⟨hValid, rfl⟩ := addRule_eq_ok_iff.mp h
  apply hc.append
  simpa using hValid

theorem WellFormed.admitRules {c : Controller} (hc : c.WellFormed) (rs : List Rule) :
    (c.admitRules rs).1.WellFormed := by
  obtain ⟨added, hValid, hEq⟩ := admitRules_cases c rs
  rw [hEq]
  exact hc.append hValid

/-- An operation that may be refused gives another controller or leaves the one there is. -/
theorem getD_cases (x : Except Fault Controller) (c : Controller) :
    (∃ d, x = .ok d ∧ x.toOption.getD c = d) ∨ x.toOption.getD c = c := by
  cases x with
  | ok d => exact .inl ⟨d, rfl, rfl⟩
  | error f => exact .inr rfl

theorem WellFormed.kept {c : Controller} (hc : c.WellFormed) {x : Except Fault Controller}
    (h : ∀ d, x = .ok d → d.WellFormed) : (x.toOption.getD c).WellFormed := by
  obtain ⟨d, hOk, hEq⟩ | hEq := getD_cases x c <;> rw [hEq]
  · exact h d hOk
  · exact hc

theorem WellFormed.perform {c : Controller} (hc : c.WellFormed) (op : Operation) :
    (c.perform op).WellFormed := by
  cases op with
  | addVariable v => exact hc.kept fun d h => hc.addVariable h
  | addVariables vs => exact hc.addVariables vs
  | addRule r => exact hc.kept fun d h => hc.addRule h
  | addRules rs => exact hc.admitRules rs
  | setStrategy strategy => exact ⟨hc.named, hc.declared⟩
  | setOutputStrategy output strategy => exact ⟨hc.named, hc.declared⟩

theorem wellFormed_new (settings : Settings) : (new settings).WellFormed := by
  constructor
  · intro name v h
    cases h
  · intro r hr
    cases hr

theorem WellFormed.run {c : Controller} (hc : c.WellFormed) (ops : List Operation) :
    (c.run ops).WellFormed := by
  induction ops generalizing c with
  | nil => exact hc
  | cons op ops ih => exact ih (hc.perform op)

theorem Reachable.wellFormed {c : Controller} (hc : c.Reachable) : c.WellFormed := by
  obtain ⟨settings, ops, rfl⟩ := hc
  exact (wellFormed_new settings).run ops

end Controller

namespace WaterHeater

theorem reachable (settings : Settings) : (controller settings).Reachable :=
  ⟨settings, [.addVariables [water, power], .addRules rules], rfl⟩

def fan : Variable := ⟨"Fan", [⟨"Fast", .triangle 0.0 50.0 100.0⟩]⟩

def ventilation : Rule := Antecedent.implies (.about ⟨"Water", "Warm"⟩) ⟨"Fan", "Fast"⟩

/-- With a fan that runs while the water is warm. -/
def ventilated : Controller :=
  (controller .initial).run [.addVariable fan, .addRule ventilation]

theorem reachable_ventilated : ventilated.Reachable :=
  ⟨.initial, [.addVariables [water, power], .addRules rules, .addVariable fan, .addRule ventilation],
    rfl⟩

end WaterHeater

end FuzzyControl
