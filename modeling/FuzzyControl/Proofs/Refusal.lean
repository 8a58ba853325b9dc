import FuzzyControl.Proofs.Admission
import FuzzyControl.Proofs.Statements

/-! # Which rules are refused

A rule is looked at three times. First the whole condition is searched for a statement whose term was
declared by another variable: a term of the same name that the variable has itself does not help. Then
its statements, and last its consequents, have to be found in the controller. `Refuses` says what is
reported, by which search stops first and at which place of the rule; the controller is the same
afterwards.
-/
namespace FuzzyControl

set_option autoImplicit false

/-- A leaf of a condition, with the variable that declared its term. -/
structure Leaf where
  ref : TermRef
  declaredIn : String

def Leaf.Foreign (k : Leaf) : Prop := k.ref.owner ≠ k.declaredIn

instance : DecidablePred Leaf.Foreign := fun k => inferInstanceAs (Decidable (k.ref.owner ≠ k.declaredIn))

namespace Antecedent

def leaves : Antecedent → List Leaf
  | is owner term declaredIn => [⟨⟨owner, term⟩, declaredIn⟩]
  | and l r => l.leaves ++ r.leaves
  | or l r => l.leaves ++ r.leaves
  | not e => e.leaves

/-- The descent that stops at a foreign leaf finds what a search of all leaves finds. -/
theorem foreign?_eq_find? (e : Antecedent) :
    e.foreign? = (e.leaves.find? fun k => k.Foreign).map Leaf.ref := by
  induction e with
  | is owner term declaredIn =>
    by_cases h : owner = declaredIn <;> simp [foreign?, leaves, Leaf.Foreign, h]
  | and l r hl hr => rw [foreign?, leaves, List.find?_append, Option.map_or, hl, hr]
  | or l r hl hr => rw [foreign?, leaves, List.find?_append, Option.map_or, hl, hr]
  | not e he => exact he

theorem foreign?_eq_none_iff {e : Antecedent} :
    e.foreign? = none ↔ ∀ k ∈ e.leaves, ¬ k.Foreign := by
  rw [foreign?_eq_find?, Option.map_eq_none_iff, List.find?_eq_none]
  simp only [decide_eq_true_eq]

theorem foreign?_eq_some_iff {e : Antecedent} {ref : TermRef} :
    e.foreign? = some ref ↔ ∃ k, Leftmost Leaf.Foreign e.leaves k ∧ k.ref = ref := by
  rw [foreign?_eq_find?, Option.map_eq_some_iff]
  simp only [find?_eq_some_iff_leftmost, decide_eq_true_eq]

end Antecedent

namespace Controller

variable {c : Controller} {ref : TermRef} {r : Rule} {f : Fault}

theorem resolve_eq_withShape : c.resolve ref = withShape c.vars ref .ok := rfl

theorem exists_resolve_iff : (∃ shape, c.resolve ref = .ok shape) ↔ Declared c.vars ref := by
  rw [resolve_eq_withShape, exists_withShape_iff, ← exists_shape?_iff_declared]
  simp

theorem resolve_eq_error_iff : c.resolve ref = .error f ↔ Undeclared c.vars ref f := by
  rw [resolve_eq_withShape, withShape_eq_error_iff]
  simp

/-- The first of the references that the controller does not have, and what is wrong with it. -/
def Misses (c : Controller) (refs : List TermRef) (f : Fault) : Prop :=
  ∃ ref, Leftmost (fun ref => ¬ Declared c.vars ref) refs ref ∧ Undeclared c.vars ref f

/-- What is reported of a rule. -/
inductive Refuses (c : Controller) (r : Rule) : Fault → Prop where
  | foreign {k : Leaf} (hLeaf : Leftmost Leaf.Foreign r.antecedent.leaves k) :
      Refuses c r (.undeclaredTerm k.ref.owner k.ref.term)
  | statement {f : Fault} (hOwn : ∀ k ∈ r.antecedent.leaves, ¬ k.Foreign)
      (hMisses : c.Misses r.antecedent.atoms f) : Refuses c r f
  | consequent {f : Fault} (hOwn : ∀ k ∈ r.antecedent.leaves, ¬ k.Foreign)
      (hStatements : ∀ ref ∈ r.antecedent.atoms, Declared c.vars ref)
      (hMisses : c.Misses r.consequents f) : Refuses c r f

variable {refs : List TermRef}

theorem findSome?_resolve_eq_some_iff :
    (refs.findSome? fun ref => fault? (c.resolve ref)) = some f ↔ c.Misses refs f := by
  rw [findSome?_fault?_eq_some_iff, Misses]
  simp only [resolve_eq_error_iff, exists_resolve_iff]

theorem findSome?_resolve_eq_none_iff :
    (refs.findSome? fun ref => fault? (c.resolve ref)) = none ↔
      ∀ ref ∈ refs, Declared c.vars ref := by
  rw [List.findSome?_eq_none_iff]
  simp only [fault?_eq_none_iff, exists_resolve_iff]

theorem refuses_iff :
    c.Refuses r f ↔
      (∃ ref, r.antecedent.foreign? = some ref ∧ f = .undeclaredTerm ref.owner ref.term) ∨
      (r.antecedent.foreign? = none ∧
        ((r.antecedent.atoms ++ r.consequents).findSome? fun ref => fault? (c.resolve ref)) =
          some f) := by
  rw [List.findSome?_append, Option.or_eq_some_iff, findSome?_resolve_eq_some_iff,
    findSome?_resolve_eq_some_iff, findSome?_resolve_eq_none_iff, Antecedent.foreign?_eq_none_iff]
  constructor
  · intro h
    cases h with
    | foreign hLeaf => exact .inl ⟨_, Antecedent.foreign?_eq_some_iff.mpr ⟨_, hLeaf, rfl⟩, rfl⟩
    | statement hOwn hMisses => exact .inr ⟨hOwn, .inl hMisses⟩
    | consequent hOwn hStatements hMisses => exact .inr ⟨hOwn, .inr ⟨hStatements, hMisses⟩⟩
  · rintro (⟨ref, hForeign, rfl⟩ | ⟨hOwn, hMisses | ⟨hStatements, hMisses⟩⟩)
    · obtain ⟨k, hLeaf, rfl⟩ := Antecedent.foreign?_eq_some_iff.mp hForeign
      exact .foreign hLeaf
    · exact .statement hOwn hMisses
    · exact .consequent hOwn hStatements hMisses

theorem addRule_eq_error_iff : c.addRule r = .error f ↔ c.Refuses r f := by
  rw [refuses_iff, ← fault?_eq_some_iff, fault?_addRule, validate]
  cases r.antecedent.foreign? with
  | some ref => simp [eq_comm]
  | none =>
    -- the shape that is found is dropped, and with it nothing of the fault
    have hItem : ∀ ref ∈ r.antecedent.atoms ++ r.consequents,
        fault? (do let _ ← c.resolve ref : Except Fault Unit) = fault? (c.resolve ref) :=
      fun ref _ => fault?_map (fun _ => ()) (c.resolve ref)
    dsimp only
    rw [fault?_forM, findSome?_congr hItem]
    simp

/-- The rule speaks of nothing but what the controller has. -/
structure Accepts (c : Controller) (r : Rule) : Prop where
  own : ∀ k ∈ r.antecedent.leaves, ¬ k.Foreign
  statements : ∀ ref ∈ r.antecedent.atoms, Declared c.vars ref
  consequents : ∀ ref ∈ r.consequents, Declared c.vars ref

theorem exists_addRule_iff_accepts : (∃ d, c.addRule r = .ok d) ↔ c.Accepts r := by
  rw [exists_addRule_iff, validate_eq_ok_iff, Antecedent.foreign?_eq_none_iff]
  simp only [Declares, exists_resolve_iff, List.forall_mem_append]
  exact ⟨fun h => ⟨h.1, h.2.1, h.2.2⟩, fun h => ⟨h.own, h.statements, h.consequents⟩⟩

/-- Whatever operations built a controller, its variables are kept under their exact names, and a rule
is added at the end if all it speaks of is declared, with no term of another variable. Otherwise nothing
changes, and the fault is the one that `Refuses` finds. -/
theorem addRule_of_reachable {c : Controller} (hc : c.Reachable) (r : Rule) :
    (∀ name v, (name, v) ∈ c.vars.entries → v.name = name) ∧
    ((∃ d, c.addRule r = .ok d) ↔ c.Accepts r) ∧
    (∀ d, c.addRule r = .ok d →
      d = { c with rules := c.rules ++ [r] } ∧ c.perform (.addRule r) = d) ∧
    ∀ f, (c.addRule r = .error f ↔ c.Refuses r f) ∧
      (c.addRule r = .error f → c.perform (.addRule r) = c) := by
  refine ⟨?_, exists_addRule_iff_accepts, ?_, fun f => ⟨addRule_eq_error_iff, ?_⟩⟩
  · intro name v hMem
    exact hc.wellFormed.named name v (Table.find?_eq_some_iff.mpr hMem)
  · intro d hd
    refine ⟨(addRule_eq_ok_iff.mp hd).2, ?_⟩
    rw [perform, hd]
    rfl
  · intro hError
    rw [perform, hError]
    rfl

/-- The term of the power under a name that the water has too, behind a statement about a variable that
is not there. -/
theorem addRule_waterHeater_foreign :
    (WaterHeater.controller .initial).Reachable ∧
    (WaterHeater.controller .initial).addRule ((Antecedent.or (.is "Fan" "Fast" "Fan")
      (.not (.is "Water" "Cold" "Power"))).implies ⟨"Power", "High"⟩) =
        .error (.undeclaredTerm "Water" "Cold") ∧
    (WaterHeater.controller .initial).addRule ((Antecedent.or (.is "Fan" "Fast" "Fan")
      (.not (.is "Water" "Cold" "Water"))).implies ⟨"Power", "High"⟩) =
        .error (.undeclaredVariable "Fan") := by
  have hReachable := WaterHeater.reachable .initial
  have hNone : ∀ v, ("Fan", v) ∉ (WaterHeater.controller .initial).vars.entries :=
    Table.find?_eq_none_iff.mp rfl
  refine ⟨hReachable, ?_, ?_⟩
  · refine ((addRule_of_reachable hReachable _).2.2.2 _).1.mpr ?_
    exact .foreign (k := ⟨⟨"Water", "Cold"⟩, "Power"⟩)
      ⟨[⟨⟨"Fan", "Fast"⟩, "Fan"⟩], [], rfl, by decide, by decide⟩
  · refine ((addRule_of_reachable hReachable _).2.2.2 _).1.mpr ?_
    refine .statement (by decide) ⟨⟨"Fan", "Fast"⟩, ⟨[], _, rfl, List.forall_mem_nil _, ?_⟩, ?_⟩
    · rintro ⟨v, hMem, -⟩
      exact hNone v hMem
    · exact .noVariable hNone

end Controller

end FuzzyControl
