import FuzzyControl.OutputSet
import FuzzyControl.Proofs.UnitInterval

/-! # Merged contributions

Recording contributions one after the other groups them by term, and keeps the greatest strength of each
group. `Merged` says so of a list of contributions and the list that they are merged into; it holds of
nothing, one more contribution preserves it, and so it holds after any number of them.
-/
namespace FuzzyControl.OutputSet

set_option autoImplicit false

/-- The contributions `ds` are `ks` by terms: a term stands where it first occurred, with the shape
that it came with then, and has the greatest of its strengths. -/
structure Merged (ks ds : List Contribution) : Prop where
  terms : ds.map Contribution.term = (ks.map Contribution.term).eraseDups
  first : ∀ d ∈ ds, ∃ k, ks.find? (fun k => k.term == d.term) = some k ∧ k.shape = d.shape
  attained : ∀ d ∈ ds, ∃ k ∈ ks, k.term = d.term ∧ k.strength = d.strength
  bound : ∀ d ∈ ds, ∀ k ∈ ks, k.term = d.term → k.strength.measure ≤ d.strength.measure

theorem eraseDups_append_singleton {α : Type} [DecidableEq α] (as : List α) (a : α) :
    (as ++ [a]).eraseDups = if a ∈ as then as.eraseDups else as.eraseDups ++ [a] := by
  rw [List.eraseDups_append, List.removeAll]
  by_cases h : a ∈ as <;> simp [h, List.eraseDups_cons]

theorem nodup_eraseDups {α : Type} [DecidableEq α] (as : List α) : as.eraseDups.Nodup := by
  induction as using List.reverseRecOn with
  | nil => exact List.nodup_nil
  | append_singleton as a ih =>
    rw [eraseDups_append_singleton]
    split_ifs with h
    · exact ih
    · refine List.nodup_append.mpr ⟨ih, List.nodup_singleton a, ?_⟩
      rintro x hx y hy rfl
      rw [List.mem_singleton.mp hy, List.mem_eraseDups] at hx
      exact h hx

/-- What there is after merging: the entries of other terms, and one of the merged term. -/
theorem mem_merge {c d : Contribution} {ds : List Contribution}
    (hNodup : (ds.map Contribution.term).Nodup) (hd : d ∈ merge c ds) :
    (d ∈ ds ∧ d.term ≠ c.term) ∨
    (∃ e ∈ ds, e.term = c.term ∧ d = { e with strength := e.strength.or c.strength }) ∨
    ((∀ e ∈ ds, e.term ≠ c.term) ∧ d = c) := by
  induction ds with
  | nil =>
    refine .inr (.inr ⟨?_, List.mem_singleton.mp hd⟩)
    intro e he
    cases he
  | cons e es ih =>
    obtain ⟨hFresh, hRest⟩ := List.nodup_cons.mp hNodup
    rw [merge] at hd
    split_ifs at hd with hTerm
    · obtain rfl | hOld := List.mem_cons.mp hd
      · exact .inr (.inl ⟨e, List.mem_cons_self, hTerm, rfl⟩)
      · refine .inl ⟨List.mem_cons_of_mem _ hOld, ?_⟩
        intro hSame
        exact hFresh (List.mem_map.mpr ⟨d, hOld, hSame.trans hTerm.symm⟩)
    · obtain rfl | hOld := List.mem_cons.mp hd
      · exact .inl ⟨List.mem_cons_self, hTerm⟩
      · obtain ⟨hMem, hNe⟩ | ⟨f, hf, hSame, hEq⟩ | ⟨hNone, hEq⟩ := ih hRest hOld
        · exact .inl ⟨List.mem_cons_of_mem _ hMem, hNe⟩
        · exact .inr (.inl ⟨f, List.mem_cons_of_mem _ hf, hSame, hEq⟩)
        · exact .inr (.inr ⟨List.forall_mem_cons.mpr ⟨hTerm, hNone⟩, hEq⟩)

namespace Merged

variable {ks ds : List Contribution} (h : Merged ks ds)

include h

theorem nodup : (ds.map Contribution.term).Nodup := by
  rw [h.terms]
  exact nodup_eraseDups _

theorem exists_of_mem {k : Contribution} (hk : k ∈ ks) : ∃ d ∈ ds, d.term = k.term := by
  have hTerm : k.term ∈ ds.map Contribution.term := by
    rw [h.terms, List.mem_eraseDups]
    exact List.mem_map_of_mem hk
  exact List.mem_map.mp hTerm

theorem eq_nil_iff : ds = [] ↔ ks = [] := by
  constructor
  · rintro rfl
    rw [List.eq_nil_iff_forall_not_mem]
    intro k hk
    obtain ⟨d, hd, -⟩ := h.exists_of_mem hk
    cases hd
  · rintro rfl
    rw [List.eq_nil_iff_forall_not_mem]
    intro d hd
    obtain ⟨k, hk, -⟩ := h.attained d hd
    cases hk

theorem defined (hks : ∀ k ∈ ks, k.strength.Defined) {d : Contribution} (hd : d ∈ ds) :
    d.strength.Defined := by
  obtain ⟨k, hk, -, hStrength⟩ := h.attained d hd
  rw [← hStrength]
  exact hks k hk

theorem merge (hks : ∀ k ∈ ks, k.strength.Defined) {c : Contribution} (hc : c.strength.Defined) :
    Merged (ks ++ [c]) (OutputSet.merge c ds) := by
  have hLast : c ∈ ks ++ [c] := List.mem_append_right _ (List.mem_singleton_self c)
  constructor
  · rw [map_term_merge, List.map_append, List.map_singleton, eraseDups_append_singleton, h.terms]
    simp only [List.mem_eraseDups]
  · intro d hd
    obtain ⟨hOld, -⟩ | ⟨e, he, -, rfl⟩ | ⟨hNone, rfl⟩ := mem_merge h.nodup hd
    · obtain ⟨k, hk, hShape⟩ := h.first d hOld
      exact ⟨k, by rw [List.find?_append, hk, Option.some_or], hShape⟩
    · obtain ⟨k, hk, hShape⟩ := h.first e he
      exact ⟨k, by rw [List.find?_append, hk, Option.some_or], hShape⟩
    · have hNew : ks.find? (fun k => k.term == d.term) = none := by
        rw [List.find?_eq_none]
        intro k hk hSame
        obtain ⟨e, he, hTerm⟩ := h.exists_of_mem hk
        exact hNone e he (hTerm.trans (beq_iff_eq.mp hSame))
      exact ⟨d, by rw [List.find?_append, hNew, Option.none_or]; simp, rfl⟩
  · intro d hd
    obtain ⟨hOld, -⟩ | ⟨e, he, hTerm, rfl⟩ | ⟨-, rfl⟩ := mem_merge h.nodup hd
    · obtain ⟨k, hk, hStrength⟩ := h.attained d hOld
      exact ⟨k, List.mem_append_left _ hk, hStrength⟩
    · obtain hOr | hOr := Degree.or_eq_or e.strength c.strength
      · obtain ⟨k, hk, hSame, hStrength⟩ := h.attained e he
        exact ⟨k, List.mem_append_left _ hk, hSame, hStrength.trans hOr.symm⟩
      · exact ⟨c, hLast, hTerm.symm, hOr.symm⟩
    · exact ⟨d, hLast, rfl, rfl⟩
  · intro d hd k hk hSame
    obtain ⟨hOld, hNe⟩ | ⟨e, he, hTerm, rfl⟩ | ⟨hNone, rfl⟩ := mem_merge h.nodup hd
    · obtain hk | hk := List.mem_append.mp hk
      · exact h.bound d hOld k hk hSame
      · rw [List.mem_singleton.mp hk] at hSame
        exact absurd hSame.symm hNe
    · change _ ≤ (e.strength.or c.strength).measure
      rw [(h.defined hks he).measure_or hc]
      obtain hk | hk := List.mem_append.mp hk
      · exact (h.bound e he k hk hSame).trans (le_max_left _ _)
      · rw [List.mem_singleton.mp hk]
        exact le_max_right _ _
    · obtain hk | hk := List.mem_append.mp hk
      · obtain ⟨e, he, hTerm⟩ := h.exists_of_mem hk
        exact absurd (hTerm.trans hSame) (hNone e he)
      · rw [List.mem_singleton.mp hk]

end Merged

def mergeAll (ks : List Contribution) : List Contribution := ks.foldl (fun ds k => merge k ds) []

theorem merged_mergeAll {ks : List Contribution} (hks : ∀ k ∈ ks, k.strength.Defined) :
    Merged ks (mergeAll ks) := by
  induction ks using List.reverseRecOn with
  | nil => constructor <;> simp [mergeAll]
  | append_singleton ks k ih =>
    have hInit : ∀ k ∈ ks, k.strength.Defined := fun j hj => hks j (List.mem_append_left _ hj)
    have hLast : k.strength.Defined := hks k (List.mem_append_right _ (List.mem_singleton_self k))
    rw [mergeAll, List.foldl_append]
    exact (ih hInit).merge hInit hLast

/-- Contributions that do not count leave no trace, the others are merged. -/
theorem contributions_foldl_record (ks : List Contribution) (s : OutputSet) :
    (ks.foldl record s).contributions =
      (ks.filter fun k => k.strength.isPositive).foldl (fun ds k => merge k ds) s.contributions := by
  induction ks generalizing s with
  | nil => rfl
  | cons k ks ih =>
    rw [List.foldl_cons, ih, List.filter_cons, record]
    split_ifs <;> rfl

end FuzzyControl.OutputSet
