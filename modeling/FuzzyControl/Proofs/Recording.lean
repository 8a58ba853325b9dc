import FuzzyControl.Proofs.Applicability
import FuzzyControl.Proofs.Composition

/-! # Any sequence of records

A set can be filled by hand as well as by rules. The strengths are then any numbers, since a degree
read from a document is not brought into the unit interval, and one term may come with several
shapes. Whatever is recorded, a set keeps what a set of fired rules has: one contribution a term,
degrees of the unit interval, and a number unless nothing counted.
-/
namespace FuzzyControl

open Binary64

set_option autoImplicit false

theorem Contribution.proper_degreeAt {k : Contribution} (hDefined : k.strength.Defined)
    (hPositive : k.strength.isPositive = true) (y : Float) : (k.degreeAt y).Proper := by
  have hGrade := Degree.proper_clamp (k.shape.grade y)
  constructor
  · exact hDefined.and hGrade.defined
  · rw [hDefined.measure_degreeAt]
    exact le_min (hDefined.isPositive_iff.mp hPositive).le hGrade.nonneg
  · rw [hDefined.measure_degreeAt]
    exact (min_le_right _ _).trans hGrade.le_one

namespace OutputSet

/-- The set of an output after some records. -/
def recorded (output : String) (ks : List Contribution) : OutputSet :=
  ks.foldl record (.empty output)

/-- Those contributions that leave a trace. -/
def counting (ks : List Contribution) : List Contribution :=
  ks.filter fun k => k.strength.isPositive

theorem mem_counting_iff {ks : List Contribution} {k : Contribution} :
    k ∈ counting ks ↔ k ∈ ks ∧ 0.0 < k.strength.value := by
  rw [counting, List.mem_filter, Degree.isPositive_iff]

theorem counting_eq_nil_iff {ks : List Contribution} :
    counting ks = [] ↔ ∀ k ∈ ks, ¬ 0.0 < k.strength.value := by
  simp only [counting, List.filter_eq_nil_iff, Degree.isPositive_iff]

theorem recorded_append (output : String) (ks : List Contribution) (k : Contribution) :
    recorded output (ks ++ [k]) = (recorded output ks).record k := by
  rw [recorded, List.foldl_append]
  rfl

@[simp] theorem output_recorded (output : String) (ks : List Contribution) :
    (recorded output ks).output = output := by
  induction ks using List.reverseRecOn with
  | nil => rfl
  | append_singleton ks k ih => rw [recorded_append, output_record, ih]

theorem contributions_recorded (output : String) (ks : List Contribution) :
    (recorded output ks).contributions = mergeAll (counting ks) :=
  contributions_foldl_record ks (.empty output)

section

variable {output : String} {ks : List Contribution} (hks : ∀ k ∈ ks, k.strength.Defined)

include hks

theorem merged_recorded : Merged (counting ks) (recorded output ks).contributions := by
  rw [contributions_recorded]
  exact merged_mergeAll fun k hk => hks k (mem_counting_iff.mp hk).1

variable {d : Contribution} (hd : d ∈ (recorded output ks).contributions)

include hd

theorem exists_of_mem_recorded : ∃ k ∈ ks, k.strength = d.strength ∧ 0.0 < d.strength.value := by
  obtain ⟨k, hk, -, hStrength⟩ := (merged_recorded hks).attained d hd
  obtain ⟨hMem, hPositive⟩ := mem_counting_iff.mp hk
  exact ⟨k, hMem, hStrength, hStrength ▸ hPositive⟩

theorem defined_of_mem_recorded : d.strength.Defined := by
  obtain ⟨k, hk, hStrength, -⟩ := exists_of_mem_recorded hks hd
  rw [← hStrength]
  exact hks k hk

theorem isPositive_of_mem_recorded : d.strength.isPositive = true := by
  obtain ⟨-, -, -, hPositive⟩ := exists_of_mem_recorded hks hd
  exact (Degree.isPositive_iff _).mpr hPositive

end

/-- After any records whose strengths are numbers, be they negative or above one: the contributions are
the ones that counted, by terms; every degree lies in the unit interval; and the total is positive, and
there is a number, exactly if something counted. -/
theorem recorded_of_defined {output : String} {ks : List Contribution}
    (hks : ∀ k ∈ ks, k.strength.value.isNaN = false) :
    Merged (counting ks) (recorded output ks).contributions ∧
    (∀ y, ((recorded output ks).membership y).value.isNaN = false ∧
      0.0 ≤ ((recorded output ks).membership y).value ∧
      ((recorded output ks).membership y).value ≤ 1.0) ∧
    (0.0 < (recorded output ks).total ↔ (recorded output ks).contributions ≠ []) ∧
    ∀ strategy fault, (recorded output ks).defuzzify strategy = .error fault ↔
      fault = .noApplicableRule output ∧ ∀ k ∈ ks, ¬ 0.0 < k.strength.value := by
  have hMerged : Merged (counting ks) (recorded output ks).contributions := merged_recorded hks
  have hDefined := fun d (hd : d ∈ (recorded output ks).contributions) =>
    defined_of_mem_recorded hks hd
  have hPositive := fun d (hd : d ∈ (recorded output ks).contributions) =>
    isPositive_of_mem_recorded hks hd
  refine ⟨hMerged, ?_, total_pos_iff hDefined hPositive, ?_⟩
  · intro y
    apply Degree.proper_iff.mp
    exact proper_membership fun d hd =>
      Contribution.proper_degreeAt (hDefined d hd) (hPositive d hd) y
  · intro strategy fault
    rw [defuzzify_eq_error_iff hDefined hPositive, output_recorded, hMerged.eq_nil_iff,
      counting_eq_nil_iff]

/-- Strengths above one and below zero, and two shapes under one term. -/
def rawRecords : List Contribution :=
  [⟨"Low", .triangle 0.0 1.0 2.0, ⟨5.0⟩⟩, ⟨"High", .triangle 4.0 5.0 6.0, ⟨-1.0⟩⟩,
    ⟨"Low", .triangle 7.0 8.0 9.0, ⟨7.0⟩⟩]

theorem recorded_of_defined_raw :
    (∀ k ∈ rawRecords, k.strength.value.isNaN = false) ∧
    (recorded "Power" rawRecords).contributions.map Contribution.term = ["Low"] ∧
    (∀ y, ((recorded "Power" rawRecords).membership y).value ≤ 1.0) ∧
    ∀ strategy, (recorded "Power" rawRecords).defuzzify strategy ≠
      .error (.noApplicableRule "Power") := by
  have hks : ∀ k ∈ rawRecords, k.strength.value.isNaN = false := by
    simp only [rawRecords, List.forall_mem_cons]
    decide +kernel
  have hCounts : (⟨"Low", .triangle 0.0 1.0 2.0, ⟨5.0⟩⟩ : Contribution) ∈ rawRecords ∧
      (0.0 : Float) < 5.0 := ⟨List.mem_cons_self, by decide +kernel⟩
  obtain ⟨hMerged, hUnit, -, hError⟩ := @recorded_of_defined "Power" _ hks
  refine ⟨hks, hMerged.terms.trans (by decide +kernel), fun y => (hUnit y).2.2, ?_⟩
  intro strategy hFault
  exact ((hError strategy _).mp hFault).2 _ hCounts.1 hCounts.2

end OutputSet

end FuzzyControl
