import FuzzyControl.Proofs.UnitInterval
import Mathlib.Logic.Relation

/-! # What a condition says of its statements

A degree of the unit interval is a real number, its `truth`. On these numbers "and" is the minimum, "or"
the maximum, and "not" the complement to one, rounded. Rounding keeps the order, so this complement
turns the order round, on all real numbers and without any tolerance. A condition is thus a function of
the truths of its statements (`Antecedent.truth`), and whether two conditions always come to the same,
or one evaluation to more than another, is a question about real numbers.
-/
namespace FuzzyControl

open Binary64

set_option autoImplicit false

namespace Degree

noncomputable def truth (a : Degree) : ℝ := a.measure.toReal

/-- The complement to one, rounded as a difference of doubles is. -/
noncomputable def complement (r : ℝ) : ℝ := nearest (1 - r)

theorem antitone_complement : Antitone complement := fun _ _ h =>
  nearest_mono (sub_le_sub_left h 1)

section

variable {a b : Degree}

theorem Proper.measure_eq (ha : a.Proper) : a.measure = (a.truth : EReal) := by
  obtain ⟨r, -, hMeasure, -, -⟩ := ha.denotes
  rw [truth, hMeasure, EReal.toReal_coe]

theorem Proper.denotes_truth (ha : a.Proper) : Denotes a.value a.truth :=
  ⟨ha.defined, ha.measure_eq⟩

theorem Proper.truth_mem_unit (ha : a.Proper) : 0 ≤ a.truth ∧ a.truth ≤ 1 := by
  have hLow := ha.nonneg
  have hHigh := ha.le_one
  rw [ha.measure_eq] at hLow hHigh
  exact ⟨EReal.coe_nonneg.mp hLow, EReal.coe_le_coe_iff.mp hHigh⟩

theorem Proper.value_le_iff (ha : a.Proper) (hb : b.Proper) :
    a.value ≤ b.value ↔ a.truth ≤ b.truth := by
  rw [ha.defined.le_iff hb.defined, ha.measure_eq, hb.measure_eq, EReal.coe_le_coe_iff]

theorem Proper.beq_iff_truth (ha : a.Proper) (hb : b.Proper) :
    (a == b) = true ↔ a.truth = b.truth := by
  rw [ha.defined.beq_iff hb.defined, ha.measure_eq, hb.measure_eq, EReal.coe_eq_coe_iff]

theorem Proper.truth_and (ha : a.Proper) (hb : b.Proper) :
    (a.and b).truth = min a.truth b.truth := by
  have hMin := ha.defined.measure_and hb.defined
  rw [(ha.and hb).measure_eq, ha.measure_eq, hb.measure_eq,
    ← EReal.coe_strictMono.monotone.map_min] at hMin
  exact EReal.coe_eq_coe_iff.mp hMin

theorem Proper.truth_or (ha : a.Proper) (hb : b.Proper) :
    (a.or b).truth = max a.truth b.truth := by
  have hMax := ha.defined.measure_or hb.defined
  rw [(ha.or hb).measure_eq, ha.measure_eq, hb.measure_eq,
    ← EReal.coe_strictMono.monotone.map_max] at hMax
  exact EReal.coe_eq_coe_iff.mp hMax

theorem Proper.truth_not (ha : a.Proper) : a.not.truth = complement a.truth := by
  obtain ⟨hNonneg, hOne⟩ := ha.truth_mem_unit
  -- The difference stays between zero and one, so rounding does not leave the range of the doubles.
  have hLow : 0 ≤ nearest (1 - a.truth) := nearest_nonneg (by linarith)
  have hHigh : nearest (1 - a.truth) ≤ 1 := by
    calc
      nearest (1 - a.truth) ≤ nearest 1 := nearest_mono (by linarith)
      _ = 1 := nearest_eq_self ⟨1, 0, by norm_num, by norm_num, by norm_num⟩
  have hBound : |nearest (1 - a.truth)| < limit := by
    rw [abs_of_nonneg hLow]
    exact hHigh.trans_lt (one_lt_zpow₀ one_lt_two (by norm_num))
  have hNot : a.not.measure = (nearest (1 - a.truth) : EReal) :=
    (denotes_one.sub ha.denotes_truth).value.trans (confined_of_lt hBound)
  rw [truth, hNot, EReal.toReal_coe, complement]

end

end Degree

/-- The two evaluations fail with one fault, or come to degrees that are equal as numbers. -/
structure Agree (x y : Except Fault Degree) : Prop where
  fault : fault? x = fault? y
  degree : ∀ a b, x = .ok a → y = .ok b → (a == b) = true

namespace Antecedent

/-- The truth of a condition whose statements have the truths `t`. -/
noncomputable def truth (t : TermRef → ℝ) : Antecedent → ℝ
  | is owner term _ => t ⟨owner, term⟩
  | and l r => min (l.truth t) (r.truth t)
  | or l r => max (l.truth t) (r.truth t)
  | not e => Degree.complement (e.truth t)

/-- The truth of a statement, zero if it has no degree. -/
noncomputable def atomTruth (vars : Table Variable) (readings : Readings) (a : TermRef) : ℝ :=
  match atomDegree vars readings a with
  | .ok d => d.truth
  | .error _ => 0

theorem atomTruth_eq {vars : Table Variable} {readings : Readings} {a : TermRef} {d : Degree}
    (h : atomDegree vars readings a = .ok d) : atomTruth vars readings a = d.truth := by
  rw [atomTruth, h]

section

variable {vars : Table Variable} {readings : Readings} {e e' : Antecedent} {d d' : Degree}

theorem truth_of_evaluate (h : e.evaluate vars readings = .ok d) :
    d.truth = e.truth (atomTruth vars readings) := by
  induction e generalizing d with
  | is owner term declaredIn => exact (atomTruth_eq h).symm
  | and l r hl hr =>
    obtain ⟨a, ha, h⟩ := bind_eq_ok_iff.mp h
    obtain ⟨b, hb, h⟩ := bind_eq_ok_iff.mp h
    cases h
    rw [(proper_evaluate ha).truth_and (proper_evaluate hb), hl ha, hr hb, truth]
  | or l r hl hr =>
    obtain ⟨a, ha, h⟩ := bind_eq_ok_iff.mp h
    obtain ⟨b, hb, h⟩ := bind_eq_ok_iff.mp h
    cases h
    rw [(proper_evaluate ha).truth_or (proper_evaluate hb), hl ha, hr hb, truth]
  | not e he =>
    obtain ⟨a, ha, h⟩ := bind_eq_ok_iff.mp h
    cases h
    rw [(proper_evaluate ha).truth_not, he ha, truth]

theorem beq_of_truth_eq (h : ∀ t, e'.truth t = e.truth t) (hd : e.evaluate vars readings = .ok d)
    (hd' : e'.evaluate vars readings = .ok d') : (d' == d) = true := by
  rw [(proper_evaluate hd').beq_iff_truth (proper_evaluate hd), truth_of_evaluate hd',
    truth_of_evaluate hd, h]

theorem agree_of_truth_eq (h : ∀ t, e'.truth t = e.truth t)
    (hFault : fault? (e'.evaluate vars readings) = fault? (e.evaluate vars readings)) :
    Agree (e'.evaluate vars readings) (e.evaluate vars readings) :=
  ⟨hFault, fun _ _ hd' hd => beq_of_truth_eq h hd hd'⟩

end

/-- One part of a condition, wherever it stands, is rewritten. -/
inductive Within (R : Antecedent → Antecedent → Prop) : Antecedent → Antecedent → Prop where
  | here {e e' : Antecedent} (h : R e e') : Within R e e'
  | andLeft {l l' : Antecedent} (r : Antecedent) (h : Within R l l') :
      Within R (.and l r) (.and l' r)
  | andRight (l : Antecedent) {r r' : Antecedent} (h : Within R r r') :
      Within R (.and l r) (.and l r')
  | orLeft {l l' : Antecedent} (r : Antecedent) (h : Within R l l') : Within R (.or l r) (.or l' r)
  | orRight (l : Antecedent) {r r' : Antecedent} (h : Within R r r') : Within R (.or l r) (.or l r')
  | not {e e' : Antecedent} (h : Within R e e') : Within R (.not e) (.not e')

section

variable {R : Antecedent → Antecedent → Prop} {e e' : Antecedent}

theorem Within.truth_eq {t : TermRef → ℝ} (hR : ∀ e e', R e e' → e'.truth t = e.truth t)
    (h : Within R e e') : e'.truth t = e.truth t := by
  induction h with
  | here h => exact hR _ _ h
  | andLeft r _ ih | andRight l _ ih | orLeft r _ ih | orRight l _ ih | not _ ih =>
    rw [truth, truth, ih]

theorem Within.fault?_eq {vars : Table Variable} {readings : Readings}
    (hR : ∀ e e', R e e' →
      fault? (e'.evaluate vars readings) = fault? (e.evaluate vars readings))
    (h : Within R e e') :
    fault? (e'.evaluate vars readings) = fault? (e.evaluate vars readings) := by
  induction h with
  | here h => exact hR _ _ h
  | andLeft r _ ih | andRight l _ ih | orLeft r _ ih | orRight l _ ih | not _ ih =>
    simp only [fault?_evaluate, atoms, List.findSome?_append] at ih ⊢
    rw [ih]

/-- What no rewriting step changes is the same on both sides of any number of steps, forwards and
backwards. -/
theorem eq_of_eqvGen {α β : Type} {R : α → α → Prop} (f : α → β) (hR : ∀ a b, R a b → f b = f a)
    {a b : α} (h : Relation.EqvGen R a b) : f b = f a := by
  induction h with
  | rel a b h => exact hR a b h
  | refl a => rfl
  | symm a b _ ih => exact ih.symm
  | trans a b c _ _ ihFirst ihSecond => exact ihSecond.trans ihFirst

theorem truth_eq_of_eqvGen {t : TermRef → ℝ} (hR : ∀ e e', R e e' → e'.truth t = e.truth t)
    (h : Relation.EqvGen (Within R) e e') : e'.truth t = e.truth t :=
  eq_of_eqvGen (truth t) (fun _ _ => Within.truth_eq hR) h

theorem fault?_eq_of_eqvGen {vars : Table Variable} {readings : Readings}
    (hR : ∀ e e', R e e' →
      fault? (e'.evaluate vars readings) = fault? (e.evaluate vars readings))
    (h : Relation.EqvGen (Within R) e e') :
    fault? (e'.evaluate vars readings) = fault? (e.evaluate vars readings) :=
  eq_of_eqvGen (fun e => fault? (e.evaluate vars readings)) (fun _ _ => Within.fault?_eq hR) h

end

end Antecedent

end FuzzyControl
