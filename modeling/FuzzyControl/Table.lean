/-! # Tables by name

A table is a list of entries with names in strictly ascending order, by code points. The order is a
field of the type, so a table is determined by what it finds under each name (`Table.ext_find?`), and
the order in which entries were inserted leaves no trace.
-/
namespace FuzzyControl

set_option autoImplicit false

structure Table (α : Type) where
  entries : List (String × α)
  ascending : entries.Pairwise fun a b => a.1 < b.1

namespace Table

variable {α : Type}

def empty : Table α := ⟨[], .nil⟩

instance : Inhabited (Table α) := ⟨empty⟩

def names (t : Table α) : List String := t.entries.map Prod.fst

def lookup? (name : String) : List (String × α) → Option α
  | [] => none
  | e :: es => if e.1 = name then some e.2 else lookup? name es

def find? (t : Table α) (name : String) : Option α := lookup? name t.entries

/-- Insertion into ascending entries; an entry of the same name gives way. -/
def insertEntry (name : String) (x : α) : List (String × α) → List (String × α)
  | [] => [(name, x)]
  | e :: es =>
    if name < e.1 then (name, x) :: e :: es
    else if e.1 = name then (name, x) :: es
    else e :: insertEntry name x es

theorem mem_insertEntry {name : String} {x : α} {e : String × α} {es : List (String × α)}
    (h : e ∈ insertEntry name x es) : e = (name, x) ∨ e ∈ es := by
  induction es with
  | nil => simpa [insertEntry] using h
  | cons d ds ih =>
    rw [insertEntry] at h
    split at h
    · simpa using h
    · split at h
      · rcases List.mem_cons.1 h with h | h
        · exact .inl h
        · exact .inr (List.mem_cons_of_mem _ h)
      · rcases List.mem_cons.1 h with h | h
        · exact .inr (h ▸ List.mem_cons_self)
        · exact (ih h).imp_right (List.mem_cons_of_mem _)

theorem ascending_insertEntry {name : String} {x : α} {es : List (String × α)}
    (h : es.Pairwise fun a b => a.1 < b.1) :
    (insertEntry name x es).Pairwise fun a b => a.1 < b.1 := by
  induction es with
  | nil => simp [insertEntry]
  | cons d ds ih =>
    obtain ⟨hd, hds⟩ := List.pairwise_cons.1 h
    rw [insertEntry]
    split
    · rename_i hlt
      refine List.pairwise_cons.2 ⟨fun e he => ?_, h⟩
      rcases List.mem_cons.1 he with rfl | he
      · exact hlt
      · exact Std.lt_trans hlt (hd e he)
    · split
      · rename_i _ heq
        subst heq
        exact List.pairwise_cons.2 ⟨hd, hds⟩
      · rename_i hnlt hne
        refine List.pairwise_cons.2 ⟨fun e he => ?_, ih hds⟩
        rcases mem_insertEntry he with rfl | he
        · rcases Std.le_iff_lt_or_eq.1 (Std.not_lt.1 hnlt) with hlt | heq
          · exact hlt
          · exact absurd heq hne
        · exact hd e he

def insert (t : Table α) (name : String) (x : α) : Table α :=
  ⟨insertEntry name x t.entries, ascending_insertEntry t.ascending⟩

def ofList (es : List (String × α)) : Table α :=
  es.foldl (fun t e => t.insert e.1 e.2) empty

def map {β : Type} (f : α → β) (t : Table α) : Table β :=
  ⟨t.entries.map fun e => (e.1, f e.2), List.pairwise_map.2 t.ascending⟩

theorem ext {s t : Table α} (h : s.entries = t.entries) : s = t := by
  cases s; cases t; cases h; rfl

@[simp] theorem find?_empty (name : String) : (empty : Table α).find? name = none := rfl

theorem lookup?_insertEntry_self (name : String) (x : α) (es : List (String × α)) :
    lookup? name (insertEntry name x es) = some x := by
  induction es with
  | nil => simp [insertEntry, lookup?]
  | cons d ds ih =>
    rw [insertEntry]
    split
    · simp [lookup?]
    · split
      · simp [lookup?]
      · simp [lookup?, *]

theorem lookup?_insertEntry_of_ne {name other : String} (h : other ≠ name) (x : α)
    (es : List (String × α)) :
    lookup? other (insertEntry name x es) = lookup? other es := by
  induction es with
  | nil => simp [insertEntry, lookup?, Ne.symm h]
  | cons d ds ih =>
    rw [insertEntry]
    split
    · simp [lookup?, Ne.symm h]
    · split
      · rename_i _ heq
        subst heq
        simp [lookup?, Ne.symm h]
      · simp [lookup?, ih]

@[simp] theorem find?_insert_self (t : Table α) (name : String) (x : α) :
    (t.insert name x).find? name = some x :=
  lookup?_insertEntry_self name x t.entries

theorem find?_insert_of_ne (t : Table α) {name other : String} (h : other ≠ name) (x : α) :
    (t.insert name x).find? other = t.find? other :=
  lookup?_insertEntry_of_ne h x t.entries

theorem lookup?_eq_none_iff {name : String} {es : List (String × α)} :
    lookup? name es = none ↔ ∀ e ∈ es, e.1 ≠ name := by
  induction es with
  | nil => simp [lookup?]
  | cons d ds ih =>
    by_cases h : d.1 = name <;> simp [lookup?, h, ih]

theorem lookup?_cons_self (e : String × α) (es : List (String × α)) :
    lookup? e.1 (e :: es) = some e.2 := by
  simp [lookup?]

theorem lookup?_eq_none_of_lt {name : String} {es : List (String × α)}
    (h : ∀ e ∈ es, name < e.1) : lookup? name es = none :=
  lookup?_eq_none_iff.2 fun e he heq => Std.lt_irrefl (heq ▸ h e he)

theorem not_lt_of_lookup?_eq {d e : String × α} {ds es : List (String × α)}
    (hd : ∀ x ∈ ds, d.1 < x.1)
    (h : lookup? e.1 (e :: es) = lookup? e.1 (d :: ds)) : ¬ e.1 < d.1 := by
  intro hlt
  rw [lookup?_cons_self, lookup?_eq_none_of_lt] at h
  · cases h
  · intro x hx
    rcases List.mem_cons.1 hx with rfl | hx
    · exact hlt
    · exact Std.lt_trans hlt (hd x hx)

theorem entries_ext {es ds : List (String × α)} (hes : es.Pairwise fun a b => a.1 < b.1)
    (hds : ds.Pairwise fun a b => a.1 < b.1)
    (h : ∀ name, lookup? name es = lookup? name ds) : es = ds := by
  induction es generalizing ds with
  | nil =>
    cases ds with
    | nil => rfl
    | cons d ds => simpa [lookup?] using h d.1
  | cons e es ih =>
    cases ds with
    | nil => simpa [lookup?] using h e.1
    | cons d ds =>
      obtain ⟨he, hes'⟩ := List.pairwise_cons.1 hes
      obtain ⟨hd, hds'⟩ := List.pairwise_cons.1 hds
      have hname : e.1 = d.1 :=
        String.le_antisymm (not_lt_of_lookup?_eq he (h d.1).symm)
          (not_lt_of_lookup?_eq hd (h e.1))
      have hvalue : e.2 = d.2 := by
        have := h e.1
        rw [lookup?_cons_self, hname, lookup?_cons_self] at this
        exact Option.some.inj this
      have hrest : es = ds := by
        refine ih hes' hds' fun name => ?_
        by_cases hn : e.1 = name
        · subst hn
          rw [lookup?_eq_none_of_lt he, lookup?_eq_none_of_lt (hname ▸ hd)]
        · simpa [lookup?, hn, hname ▸ hn] using h name
      rw [Prod.ext hname hvalue, hrest]

theorem mem_names_iff {t : Table α} {name : String} : name ∈ t.names ↔ t.find? name ≠ none := by
  rw [find?, Ne, lookup?_eq_none_iff, names, List.mem_map]
  constructor
  · rintro ⟨e, he, hName⟩ hNone
    exact hNone e he hName
  · intro hSome
    apply Classical.byContradiction
    intro hNot
    exact hSome fun e he hName => hNot ⟨e, he, hName⟩

theorem mem_names_insert {t : Table α} {name other : String} {x : α} :
    other ∈ (t.insert name x).names ↔ other = name ∨ other ∈ t.names := by
  by_cases h : other = name
  · subst h
    simp [mem_names_iff]
  · rw [mem_names_iff, find?_insert_of_ne t h x, ← mem_names_iff]
    simp [h]

theorem mem_names_foldl_insert {es : List (String × α)} {t : Table α} {name : String} :
    name ∈ (es.foldl (fun t e => t.insert e.1 e.2) t).names ↔
      name ∈ es.map Prod.fst ∨ name ∈ t.names := by
  induction es generalizing t with
  | nil => simp
  | cons e es ih =>
    rw [List.foldl_cons, ih, mem_names_insert, List.map_cons, List.mem_cons, ← or_assoc]
    exact or_congr_left or_comm

theorem mem_names_ofList {es : List (String × α)} {name : String} :
    name ∈ (ofList es).names ↔ name ∈ es.map Prod.fst := by
  rw [ofList, mem_names_foldl_insert]
  exact or_iff_left List.not_mem_nil

theorem pairwise_names (t : Table α) : t.names.Pairwise (· < ·) :=
  List.pairwise_map.mpr t.ascending

theorem ext_find? {s t : Table α} (h : ∀ name, s.find? name = t.find? name) : s = t :=
  ext (entries_ext s.ascending t.ascending h)

theorem mem_of_lookup?_eq_some {name : String} {x : α} {es : List (String × α)}
    (h : lookup? name es = some x) : (name, x) ∈ es := by
  induction es with
  | nil => cases h
  | cons e es ih =>
    rw [lookup?] at h
    split at h
    · rename_i hName
      cases h
      exact hName ▸ List.mem_cons_self
    · exact List.mem_cons_of_mem _ (ih h)

theorem lookup?_of_mem {e : String × α} {es : List (String × α)}
    (hes : es.Pairwise fun a b => a.1 < b.1) (he : e ∈ es) : lookup? e.1 es = some e.2 := by
  induction es with
  | nil => cases he
  | cons d ds ih =>
    obtain ⟨hd, hds⟩ := List.pairwise_cons.1 hes
    rcases List.mem_cons.1 he with rfl | he
    · exact lookup?_cons_self e ds
    · have hNe : d.1 ≠ e.1 := fun hEq => Std.lt_irrefl (hEq ▸ hd e he)
      rw [lookup?, if_neg hNe]
      exact ih hds he

theorem find?_eq_some_iff {t : Table α} {name : String} {x : α} :
    t.find? name = some x ↔ (name, x) ∈ t.entries :=
  ⟨mem_of_lookup?_eq_some, fun h => lookup?_of_mem t.ascending h⟩

theorem ext_mem {s t : Table α} (h : ∀ e, e ∈ s.entries ↔ e ∈ t.entries) : s = t := by
  refine ext_find? fun name => Option.ext fun x => ?_
  rw [find?_eq_some_iff, find?_eq_some_iff, h]

/-- A new name takes its place among the entries and changes nothing else. -/
theorem insertEntry_perm {name : String} {es : List (String × α)} (h : ∀ e ∈ es, e.1 ≠ name)
    (x : α) : (insertEntry name x es).Perm ((name, x) :: es) := by
  induction es with
  | nil => exact .refl _
  | cons d ds ih =>
    obtain ⟨hd, hds⟩ := List.forall_mem_cons.1 h
    rw [insertEntry, if_neg hd]
    split
    · exact .refl _
    · exact ((ih hds).cons d).trans (.swap _ _ _)

end Table

end FuzzyControl
