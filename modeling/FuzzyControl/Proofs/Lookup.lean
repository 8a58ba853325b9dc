import FuzzyControl.Proofs.Registration

/-! # Which reading a name finds

A name finds the reading of that very name or else, of the names that agree with it in lower case, the
reading of the least. `Selects` says this in terms of which readings there are, not of how they are
listed, and it looks only at readings whose names agree with the given one in lower case. Of the
variables of a controller no two names agree in this way, so that one reading concerns one variable at
most.
-/
namespace FuzzyControl

set_option autoImplicit false

namespace Readings

def Distinct (readings : Readings) : Prop := (readings.map Prod.fst).Nodup

/-- The reading that counts for a name. -/
inductive Selects (readings : Readings) (name : String) : String × Float → Prop where
  | verbatim {x : Float} (hMem : (name, x) ∈ readings) : Selects readings name (name, x)
  | alike {r : String × Float} (hNone : ∀ s ∈ readings, s.1 ≠ name) (hMem : r ∈ readings)
      (hAlike : Text.lowerCase r.1 = Text.lowerCase name)
      (hLeast : ∀ s ∈ readings, Text.lowerCase s.1 = Text.lowerCase name → r.1 ≤ s.1) :
      Selects readings name r

variable {readings readings' : Readings} {name key : String}

theorem verbatim?_eq_none_iff : readings.verbatim? name = none ↔ ∀ r ∈ readings, r.1 ≠ name := by
  simp [verbatim?]

theorem mem_of_verbatim? {x : Float} (h : readings.verbatim? name = some x) :
    (name, x) ∈ readings := by
  obtain ⟨r, hFind, rfl⟩ := Option.map_eq_some_iff.mp h
  have hName : r.1 = name := by simpa using List.find?_some hFind
  rw [← hName]
  exact List.mem_of_find?_eq_some hFind

theorem le_of_least? {r : String × Float} (h : least? readings = some r) :
    ∀ s ∈ readings, r.1 ≤ s.1 := by
  induction readings generalizing r with
  | nil => cases h
  | cons t ts ih =>
    rw [least?] at h
    split at h
    · rename_i hNone
      cases h
      rw [least?_eq_none_iff.mp hNone]
      exact List.forall_mem_singleton.mpr le_rfl
    · rename_i u hu
      cases h
      rw [lesser, List.forall_mem_cons]
      split_ifs with hLess
      · exact ⟨hLess.le, ih hu⟩
      · exact ⟨le_rfl, fun s hs => (not_lt.mp hLess).trans (ih hu s hs)⟩

namespace Distinct

variable (h : readings.Distinct)

include h

theorem eq_of_mem {r s : String × Float} (hr : r ∈ readings) (hs : s ∈ readings)
    (hName : r.1 = s.1) : r = s :=
  List.inj_on_of_nodup_map h hr hs hName

theorem verbatim?_eq_some_iff {x : Float} :
    readings.verbatim? name = some x ↔ (name, x) ∈ readings := by
  refine ⟨mem_of_verbatim?, ?_⟩
  intro hMem
  cases hFound : readings.verbatim? name with
  | none => exact absurd rfl (verbatim?_eq_none_iff.mp hFound _ hMem)
  | some y =>
    have hSame := h.eq_of_mem (mem_of_verbatim? hFound) hMem rfl
    exact congrArg some (congrArg Prod.snd hSame)

theorem least?_eq_some_iff {r : String × Float} :
    least? readings = some r ↔ r ∈ readings ∧ ∀ s ∈ readings, r.1 ≤ s.1 := by
  constructor
  · intro hLeast
    exact ⟨mem_of_least? hLeast, le_of_least? hLeast⟩
  · rintro ⟨hMem, hLe⟩
    cases hLeast : least? readings with
    | none =>
      rw [least?_eq_none_iff.mp hLeast] at hMem
      cases hMem
    | some s =>
      have hs := mem_of_least? hLeast
      rw [h.eq_of_mem hs hMem (le_antisymm (le_of_least? hLeast r hMem) (hLe s hs))]

theorem alike (name : String) : (readings.alike name).Distinct :=
  (List.filter_sublist.map Prod.fst).nodup h

end Distinct

theorem value?_eq_none_iff :
    readings.value? name = none ↔ ∀ r ∈ readings, Text.lowerCase r.1 ≠ Text.lowerCase name := by
  rw [value?, Option.or_eq_none_iff, verbatim?_eq_none_iff, Option.map_eq_none_iff,
    least?_eq_none_iff, List.eq_nil_iff_forall_not_mem]
  simp only [mem_alike, not_and]
  constructor
  · exact fun hNone => hNone.2
  · intro hNone
    exact ⟨fun r hr hName => hNone r hr (congrArg Text.lowerCase hName), hNone⟩

theorem Distinct.value?_eq_some_iff (h : readings.Distinct) {x : Float} :
    readings.value? name = some x ↔ ∃ key, readings.Selects name (key, x) := by
  rw [value?, Option.or_eq_some_iff, h.verbatim?_eq_some_iff, verbatim?_eq_none_iff]
  constructor
  · rintro (hMem | ⟨hNone, hFound⟩)
    · exact ⟨name, .verbatim hMem⟩
    · obtain ⟨r, hLeast, rfl⟩ := Option.map_eq_some_iff.mp hFound
      obtain ⟨hMem, hLe⟩ := (h.alike name).least?_eq_some_iff.mp hLeast
      obtain ⟨hMem, hAlike⟩ := mem_alike.mp hMem
      exact ⟨r.1, .alike hNone hMem hAlike fun s hs hSame => hLe s (mem_alike.mpr ⟨hs, hSame⟩)⟩
  · rintro ⟨key, hSelects⟩
    cases hSelects with
    | verbatim hMem => exact .inl hMem
    | alike hNone hMem hAlike hLeast =>
      refine .inr ⟨hNone, Option.map_eq_some_iff.mpr ⟨(key, x), ?_, rfl⟩⟩
      refine (h.alike name).least?_eq_some_iff.mpr ⟨mem_alike.mpr ⟨hMem, hAlike⟩, ?_⟩
      intro s hs
      exact hLeast s (mem_alike.mp hs).1 (mem_alike.mp hs).2

theorem Selects.of_alike
    (hSame : ∀ r, Text.lowerCase r.1 = Text.lowerCase name → (r ∈ readings' ↔ r ∈ readings))
    {r : String × Float} (h : readings.Selects name r) : readings'.Selects name r := by
  cases h with
  | @verbatim x hMem => exact .verbatim ((hSame (name, x) rfl).mpr hMem)
  | alike hNone hMem hAlike hLeast =>
    refine .alike ?_ ((hSame r hAlike).mpr hMem) hAlike ?_
    · intro s hs hName
      exact hNone s ((hSame s (congrArg Text.lowerCase hName)).mp hs) hName
    · intro s hs hs'
      exact hLeast s ((hSame s hs').mp hs) hs'

/-- Readings that have the same entries under all names alike are searched with the same result. -/
theorem Distinct.value?_congr (h : readings.Distinct) (h' : readings'.Distinct)
    (hSame : ∀ r, Text.lowerCase r.1 = Text.lowerCase name → (r ∈ readings' ↔ r ∈ readings)) :
    readings'.value? name = readings.value? name := by
  apply Option.ext
  intro x
  rw [h'.value?_eq_some_iff, h.value?_eq_some_iff]
  exact exists_congr fun _ =>
    ⟨Selects.of_alike fun r hr => (hSame r hr).symm, Selects.of_alike hSame⟩

theorem Distinct.perm (h : readings.Distinct) (hPerm : readings'.Perm readings) :
    readings'.Distinct :=
  (hPerm.map Prod.fst).nodup_iff.mpr h

theorem Distinct.lowerCase_eq_of_value?_ne (h : readings.Distinct) (h' : readings'.Distinct)
    (hOther : ∀ r, r.1 ≠ key → (r ∈ readings' ↔ r ∈ readings))
    (hNe : readings'.value? name ≠ readings.value? name) :
    Text.lowerCase key = Text.lowerCase name := by
  by_contra hKey
  apply hNe
  apply h.value?_congr h'
  intro r hr
  apply hOther
  rintro rfl
  exact hKey hr

end Readings

theorem Controller.Reachable.eq_of_lowerCase_eq {c : Controller} (hc : c.Reachable) {m n : String}
    (hm : m ∈ c.vars.names) (hn : n ∈ c.vars.names) (h : Text.lowerCase m = Text.lowerCase n) :
    m = n := by
  have hNodup : (c.vars.names.map Text.lowerCase).Nodup := List.pairwise_map.mpr hc.distinct
  exact List.inj_on_of_nodup_map hNodup hm hn h

/-- The reading that a name finds is the selected one, whatever the order in which readings are listed,
and none is found exactly if no name agrees in lower case. Where the readings under one key are changed,
added or taken away, at most one variable of a controller finds another reading. -/
theorem Readings.value?_of_distinct {readings : Readings} (h : readings.Distinct) :
    (∀ name x, readings.value? name = some x ↔ ∃ key, readings.Selects name (key, x)) ∧
    (∀ name, readings.value? name = none ↔
      ∀ r ∈ readings, Text.lowerCase r.1 ≠ Text.lowerCase name) ∧
    (∀ name (readings' : Readings), readings'.Perm readings →
      readings'.value? name = readings.value? name) ∧
    (∀ c : Controller, c.Reachable → ∀ key (readings' : Readings), readings'.Distinct →
      (∀ r, r.1 ≠ key → (r ∈ readings' ↔ r ∈ readings)) →
      ∀ m ∈ c.vars.names, ∀ n ∈ c.vars.names,
        readings'.value? m ≠ readings.value? m → readings'.value? n ≠ readings.value? n →
        m = n) := by
  refine ⟨fun _ _ => h.value?_eq_some_iff, fun _ => value?_eq_none_iff, ?_, ?_⟩
  · intro name readings' hPerm
    exact h.value?_congr (h.perm hPerm) fun r _ => hPerm.mem_iff
  · intro c hc key readings' h' hOther m hm n hn hNeM hNeN
    have hLowerM := h.lowerCase_eq_of_value?_ne h' hOther hNeM
    have hLowerN := h.lowerCase_eq_of_value?_ne h' hOther hNeN
    exact hc.eq_of_lowerCase_eq hm hn (hLowerM.symm.trans hLowerN)

/-- Two readings for the water, neither under its exact name: the one in capitals counts, and without it
the other one does, for the water only. -/
theorem Readings.value?_waterHeater :
    (WaterHeater.controller .initial).Reachable ∧
    Distinct [("water", 10.0), ("WATER", 30.0)] ∧ Distinct [("water", 10.0)] ∧
    value? [("water", 10.0), ("WATER", 30.0)] "Water" = some 30.0 ∧
    value? [("WATER", 30.0), ("water", 10.0)] "Water" = some 30.0 ∧
    value? [("water", 10.0)] "Water" = some 10.0 ∧
    ∀ n ∈ (WaterHeater.controller .initial).vars.names,
      value? [("water", 10.0)] n ≠ value? [("water", 10.0), ("WATER", 30.0)] n → n = "Water" := by
  have hReachable := WaterHeater.reachable .initial
  have hBoth : Distinct [("water", 10.0), ("WATER", 30.0)] := by
    simp [Distinct]
  have hLess : Distinct [("water", 10.0)] := List.nodup_singleton _
  obtain ⟨hSome, -, hPerm, hOne⟩ := value?_of_distinct hBoth
  have hCapitals : value? [("water", 10.0), ("WATER", 30.0)] "Water" = some 30.0 :=
    (hSome _ _).mpr ⟨"WATER", .alike (by decide) (by simp) (by decide) (by decide)⟩
  have hWater : value? [("water", 10.0)] "Water" = some 10.0 :=
    (value?_of_distinct hLess).1 _ _ |>.mpr
      ⟨"water", .alike (by decide) (by simp) (by decide) (by decide)⟩
  have hOther : ∀ r : String × Float, r.1 ≠ "WATER" →
      (r ∈ [("water", 10.0)] ↔ r ∈ [("water", 10.0), ("WATER", 30.0)]) := by
    rintro ⟨name, x⟩ hName
    simp_all
  refine ⟨hReachable, hBoth, hLess, hCapitals, (hPerm _ _ (.swap _ _ _)).trans hCapitals, hWater, ?_⟩
  intro n hn hNe
  apply hOne _ hReachable "WATER" _ hLess hOther n hn "Water" (by decide) hNe
  rw [hWater, hCapitals]
  decide +kernel

end FuzzyControl
