import FuzzyControl.Proofs.Binary64.Identity
import FuzzyControl.Proofs.Merging

/-! # When two lists merge alike

What a list of contributions is merged into depends on little: on the terms in the order in which they
first occur, and on the greatest strength of each. Two lists that outweigh each other, term by term,
are merged into the same contributions up to their order, and into the same list if their terms first
occur in the same order.
-/
namespace FuzzyControl

open Binary64

set_option autoImplicit false

/-- A strength that is not zero is determined by the number it stands for. -/
theorem Degree.Defined.eq_of_measure_eq {a b : Degree} (ha : a.Defined) (hb : b.Defined)
    (h : a.measure = b.measure) (hNe : b.measure ≠ 0) : a = b := by
  have hValue : a.value = b.value :=
    Denotes.eq_of_ne_zero (v := b.measure) ⟨ha, h⟩ ⟨hb, rfl⟩ hNe
  exact congrArg Degree.mk hValue

namespace OutputSet

/-- Each contribution on the right has one of its term on the left that is as strong. -/
def Outweighs (ks js : List Contribution) : Prop :=
  ∀ j ∈ js, ∃ k ∈ ks, k.term = j.term ∧ j.strength.measure ≤ k.strength.measure

theorem outweighs_of_subset {ks js : List Contribution} (h : js ⊆ ks) : Outweighs ks js :=
  fun j hj => ⟨j, h hj, rfl, le_rfl⟩

theorem Outweighs.between {ks js : List Contribution} (h : Outweighs ks js)
    (as bs : List Contribution) : Outweighs (as ++ ks ++ bs) (as ++ js ++ bs) := by
  intro j hj
  obtain hj | hLast := List.mem_append.mp hj
  · obtain hFirst | hMiddle := List.mem_append.mp hj
    · exact ⟨j, List.mem_append_left _ (List.mem_append_left _ hFirst), rfl, le_rfl⟩
    · obtain ⟨k, hk, hTerm, hLe⟩ := h j hMiddle
      exact ⟨k, List.mem_append_left _ (List.mem_append_right _ hk), hTerm, hLe⟩
  · exact ⟨j, List.mem_append_right _ hLast, rfl, le_rfl⟩

theorem eraseDups_append_of_subset {α : Type} [DecidableEq α] {as bs : List α} (h : bs ⊆ as)
    (cs : List α) : (as ++ bs ++ cs).eraseDups = (as ++ cs).eraseDups := by
  have hNone : bs.removeAll as = [] := by
    rw [List.removeAll, List.filter_eq_nil_iff]
    intro b hb
    simpa using h hb
  have hSame : cs.removeAll (as ++ bs) = cs.removeAll as := by
    rw [List.removeAll, List.removeAll]
    congr 1
    funext c
    simpa using mt fun hc => h hc
  rw [List.eraseDups_append, List.eraseDups_append, hNone, List.eraseDups_append, hSame,
    List.eraseDups_nil, List.append_nil]

/-- Two lists that outweigh each other and have their terms in the same order of first occurrence. -/
structure Alike (ks js : List Contribution) : Prop where
  left : Outweighs ks js
  right : Outweighs js ks
  terms : (ks.map Contribution.term).eraseDups = (js.map Contribution.term).eraseDups

theorem alike_of_eq {ks js : List Contribution} (h : ks = js) : Alike ks js := by
  subst h
  exact ⟨outweighs_of_subset (List.Subset.refl _), outweighs_of_subset (List.Subset.refl _), rfl⟩

theorem alike_append_of_subset {ks js : List Contribution} (h : js ⊆ ks) : Alike ks (ks ++ js) := by
  refine ⟨outweighs_of_subset (List.append_subset.mpr ⟨List.Subset.refl _, h⟩),
    outweighs_of_subset (List.subset_append_left _ _), ?_⟩
  have hTerms := eraseDups_append_of_subset (List.map_subset Contribution.term h) []
  rw [List.append_nil, List.append_nil] at hTerms
  rw [List.map_append, hTerms]

theorem eq_of_map_eq {α β : Type} {f : α → β} {as bs : List α}
    (hInj : ∀ a ∈ as, ∀ b ∈ bs, f a = f b → a = b) (h : as.map f = bs.map f) : as = bs := by
  induction as generalizing bs with
  | nil => exact (List.map_eq_nil_iff.mp h.symm).symm
  | cons a as ih =>
    cases bs with
    | nil => cases h
    | cons b bs =>
      obtain ⟨hHead, hTail⟩ := List.cons.inj h
      have hRest : as = bs := ih (fun x hx y hy =>
        hInj x (List.mem_cons_of_mem _ hx) y (List.mem_cons_of_mem _ hy)) hTail
      rw [hInj a List.mem_cons_self b List.mem_cons_self hHead, hRest]

/-- Contributions that count, of terms with the shapes that `shapes` tells. -/
structure Counted (shapes : String → Shape) (ks : List Contribution) : Prop where
  proper : ∀ k ∈ ks, k.strength.Proper
  positive : ∀ k ∈ ks, 0 < k.strength.measure
  shape : ∀ k ∈ ks, k.shape = shapes k.term

namespace Merged

variable {shapes : String → Shape} {ks js ds es : List Contribution}

theorem counted (h : Merged ks ds) (hks : Counted shapes ks) : Counted shapes ds := by
  constructor
  · intro d hd
    obtain ⟨k, hk, -, hStrength⟩ := h.attained d hd
    rw [← hStrength]
    exact hks.proper k hk
  · intro d hd
    obtain ⟨k, hk, -, hStrength⟩ := h.attained d hd
    rw [← hStrength]
    exact hks.positive k hk
  · intro d hd
    obtain ⟨k, hFirst, hShape⟩ := h.first d hd
    have hTerm : k.term = d.term := by simpa using List.find?_some hFirst
    rw [← hShape, hks.shape k (List.mem_of_find?_eq_some hFirst), hTerm]

theorem measure_le (hds : Merged ks ds) (hes : Merged js es) (h : Outweighs js ks)
    {d e : Contribution} (hd : d ∈ ds) (he : e ∈ es) (hTerm : d.term = e.term) :
    d.strength.measure ≤ e.strength.measure := by
  obtain ⟨k, hk, hSame, hStrength⟩ := hds.attained d hd
  obtain ⟨j, hj, hOther, hLe⟩ := h k hk
  rw [← hStrength]
  exact hLe.trans (hes.bound e he j hj (hOther.trans (hSame.trans hTerm)))

section

variable (hds : Merged ks ds) (hes : Merged js es) (hks : Counted shapes ks)
  (hjs : Counted shapes js) (hLeft : Outweighs ks js) (hRight : Outweighs js ks)

include hds hes hks hjs hLeft hRight

theorem eq_of_term_eq {d e : Contribution} (hd : d ∈ ds) (he : e ∈ es) (hTerm : d.term = e.term) :
    d = e := by
  have hShape : d.shape = e.shape := by
    rw [(hds.counted hks).shape d hd, (hes.counted hjs).shape e he, hTerm]
  have hMeasure : d.strength.measure = e.strength.measure :=
    le_antisymm (hds.measure_le hes hRight hd he hTerm) (hes.measure_le hds hLeft he hd hTerm.symm)
  have hStrength : d.strength = e.strength :=
    ((hds.counted hks).proper d hd).defined.eq_of_measure_eq
      ((hes.counted hjs).proper e he).defined hMeasure ((hes.counted hjs).positive e he).ne'
  obtain ⟨_, _, _⟩ := d
  obtain ⟨_, _, _⟩ := e
  cases hTerm
  cases hShape
  cases hStrength
  rfl

theorem mem_of_mem {d : Contribution} (hd : d ∈ ds) : d ∈ es := by
  obtain ⟨k, hk, hTerm, -⟩ := hds.attained d hd
  obtain ⟨j, hj, hSame, -⟩ := hRight k hk
  obtain ⟨e, he, hLast⟩ := hes.exists_of_mem hj
  have hEq := hds.eq_of_term_eq hes hks hjs hLeft hRight hd he
    (hTerm.symm.trans (hSame.symm.trans hLast.symm))
  rwa [hEq]

theorem perm : ds.Perm es := by
  rw [List.perm_ext_iff_of_nodup hds.nodup.of_map hes.nodup.of_map]
  intro d
  exact ⟨hds.mem_of_mem hes hks hjs hLeft hRight, hes.mem_of_mem hds hjs hks hRight hLeft⟩

end

theorem eq_of_alike (hds : Merged ks ds) (hes : Merged js es) (hks : Counted shapes ks)
    (hjs : Counted shapes js) (h : Alike ks js) : ds = es := by
  apply eq_of_map_eq (f := Contribution.term)
  · intro d hd e he
    exact hds.eq_of_term_eq hes hks hjs h.left h.right hd he
  · rw [hds.terms, hes.terms, h.terms]

end Merged

end OutputSet

end FuzzyControl
