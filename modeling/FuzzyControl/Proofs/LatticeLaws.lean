import FuzzyControl.Proofs.Truth
import FuzzyControl.WaterHeater

/-! # Conditions form a distributive lattice

"And" and "or" obey the laws of a distributive lattice exactly, since they are minimum and maximum of real
numbers. So a condition may be rewritten by these laws, in either direction, anywhere and as often as one
likes: where both the first and the last condition have a degree it is the same, even if those in between
have statements that fail. Regrouping and repeating keep the order in which statements first occur, so
they keep the reported fault as well.
-/
namespace FuzzyControl.Antecedent

set_option autoImplicit false

/-- The laws that keep the order in which statements first occur. -/
inductive Grouping : Antecedent → Antecedent → Prop where
  | andAssoc (l r s : Antecedent) : Grouping (.and (.and l r) s) (.and l (.and r s))
  | orAssoc (l r s : Antecedent) : Grouping (.or (.or l r) s) (.or l (.or r s))
  | andSelf (e : Antecedent) : Grouping (.and e e) e
  | orSelf (e : Antecedent) : Grouping (.or e e) e

/-- The laws of a distributive lattice. -/
inductive LatticeLaw : Antecedent → Antecedent → Prop where
  | grouping {e e' : Antecedent} (h : Grouping e e') : LatticeLaw e e'
  | andComm (l r : Antecedent) : LatticeLaw (.and l r) (.and r l)
  | orComm (l r : Antecedent) : LatticeLaw (.or l r) (.or r l)
  | andAbsorb (l r : Antecedent) : LatticeLaw (.and l (.or l r)) l
  | orAbsorb (l r : Antecedent) : LatticeLaw (.or l (.and l r)) l
  | andDistrib (l r s : Antecedent) : LatticeLaw (.and l (.or r s)) (.or (.and l r) (.and l s))
  | orDistrib (l r s : Antecedent) : LatticeLaw (.or l (.and r s)) (.and (.or l r) (.or l s))

section

variable {e e' : Antecedent}

theorem Grouping.truth_eq (h : Grouping e e') (t : TermRef → ℝ) : e'.truth t = e.truth t := by
  cases h with
  | andAssoc l r s => exact (min_assoc _ _ _).symm
  | orAssoc l r s => exact (max_assoc _ _ _).symm
  | andSelf e => exact (min_self _).symm
  | orSelf e => exact (max_self _).symm

theorem LatticeLaw.truth_eq (h : LatticeLaw e e') (t : TermRef → ℝ) : e'.truth t = e.truth t := by
  cases h with
  | grouping h => exact h.truth_eq t
  | andComm l r => exact min_comm _ _
  | orComm l r => exact max_comm _ _
  | andAbsorb l r => exact inf_sup_self.symm
  | orAbsorb l r => exact sup_inf_self.symm
  | andDistrib l r s => exact (min_max_distrib_left _ _ _).symm
  | orDistrib l r s => exact (max_min_distrib_left _ _ _).symm

theorem findSome?_append_self {α β : Type} (g : α → Option β) (as : List α) :
    (as ++ as).findSome? g = as.findSome? g := by
  rw [List.findSome?_append, Option.or_self]

theorem Grouping.fault?_eq (h : Grouping e e') (vars : Table Variable) (readings : Readings) :
    fault? (e'.evaluate vars readings) = fault? (e.evaluate vars readings) := by
  rw [fault?_evaluate, fault?_evaluate]
  cases h with
  | andAssoc l r s | orAssoc l r s => simp only [atoms, List.append_assoc]
  | andSelf | orSelf => exact (findSome?_append_self _ _).symm

end

/-- Conditions that arise from one another by the laws of a distributive lattice, applied anywhere and
any number of times, come to equal degrees wherever both of them come to one. If only regrouping and
repetition are used, they also fail alike. -/
theorem evaluate_of_laws (e e' : Antecedent) (vars : Table Variable) (readings : Readings) :
    (Relation.EqvGen (Within LatticeLaw) e e' → ∀ d d', e.evaluate vars readings = .ok d →
      e'.evaluate vars readings = .ok d' → (d' == d) = true) ∧
    (Relation.EqvGen (Within Grouping) e e' →
      Agree (e'.evaluate vars readings) (e.evaluate vars readings)) := by
  constructor
  · intro h d d' hd hd'
    have hTruth (t : TermRef → ℝ) : e'.truth t = e.truth t :=
      truth_eq_of_eqvGen (fun _ _ hLaw => hLaw.truth_eq t) h
    exact beq_of_truth_eq hTruth hd hd'
  · intro h
    have hTruth (t : TermRef → ℝ) : e'.truth t = e.truth t :=
      truth_eq_of_eqvGen (fun _ _ hLaw => hLaw.truth_eq t) h
    exact agree_of_truth_eq hTruth
      (fault?_eq_of_eqvGen (fun _ _ hLaw => hLaw.fault?_eq vars readings) h)

/-- The water is neither cold nor both warm and hot. -/
def notColdNorBoth : Antecedent :=
  .not (.or (.about ⟨"Water", "Cold"⟩)
    (.and (.about ⟨"Water", "Warm"⟩) (.about ⟨"Water", "Hot"⟩)))

/-- The same with "cold or" distributed, under the negation. -/
def notColdNorEach : Antecedent :=
  .not (.and (.or (.about ⟨"Water", "Cold"⟩) (.about ⟨"Water", "Warm"⟩))
    (.or (.about ⟨"Water", "Cold"⟩) (.about ⟨"Water", "Hot"⟩)))

theorem evaluate_of_laws_waterHeater :
    ∃ d d',
      notColdNorBoth.evaluate (WaterHeater.controller .initial).vars (WaterHeater.readings 65.0) =
        .ok d ∧
      notColdNorEach.evaluate (WaterHeater.controller .initial).vars (WaterHeater.readings 65.0) =
        .ok d' ∧
      d.value = 0.75 ∧ (d' == d) = true := by
  have hSome : (notColdNorBoth.evaluate (WaterHeater.controller .initial).vars
      (WaterHeater.readings 65.0)).toOption.map Degree.value = some 0.75 := by decide +kernel
  have hSome' : (notColdNorEach.evaluate (WaterHeater.controller .initial).vars
      (WaterHeater.readings 65.0)).toOption.isSome = true := by decide +kernel
  obtain ⟨d, hd, hValue⟩ := Option.map_eq_some_iff.mp hSome
  obtain ⟨d', hd'⟩ := Option.isSome_iff_exists.mp hSome'
  have hOk := toOption_eq_some_iff.mp hd
  have hOk' := toOption_eq_some_iff.mp hd'
  have hLaw : Within LatticeLaw notColdNorBoth notColdNorEach := .not (.here (.orDistrib _ _ _))
  exact ⟨d, d', hOk, hOk', hValue, (evaluate_of_laws _ _ _ _).1 (.rel _ _ hLaw) d d' hOk hOk'⟩

end FuzzyControl.Antecedent
