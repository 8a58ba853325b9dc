import FuzzyControl.Json.Reader
import FuzzyControl.Proofs.Documents.Assembling

/-! # Values in documents that are read back

The documents made from numbers, texts, lists and named fields are plain, so they are read back. A text
says the same as before, a number is the one that its numeral is read as, and the fields of a record
are found by their names as long as these are distinct.
-/
namespace FuzzyControl

set_option autoImplicit false

section

variable {α β : Type}

theorem mapM_eq_none_of_mem {f : α → Option β} {xs : List α} {x : α} (hx : x ∈ xs)
    (h : f x = none) : xs.mapM f = none := by
  induction xs with
  | nil => cases hx
  | cons y ys ih =>
    rw [List.mapM_cons]
    obtain rfl | hx := List.mem_cons.mp hx
    · rw [h]
      rfl
    · rw [ih hx]
      cases f y <;> rfl

theorem mapM_eq_ite {f : α → Option β} {g : α → β} {p : α → Bool} {xs : List α}
    (h : ∀ x ∈ xs, f x = if p x then some (g x) else none) :
    xs.mapM f = if xs.all p then some (xs.map g) else none := by
  induction xs with
  | nil => rfl
  | cons x xs ih =>
    obtain ⟨hx, hxs⟩ := List.forall_mem_cons.mp h
    rw [List.mapM_cons, hx, ih hxs, List.all_cons, List.map_cons]
    cases p x <;> cases xs.all p <;> rfl

theorem mapM_eq_some_map {f : α → Option β} {g : α → β} {xs : List α}
    (h : ∀ x ∈ xs, f x = some (g x)) : xs.mapM f = some (xs.map g) := by
  simpa using mapM_eq_ite (p := fun _ => true) h

end

namespace Decimal

/-- The number that a number is read back as, if it has a numeral and that is read. -/
def reread? (x : Float) : Option Float := (numeral? x).bind Numeral.approximate?

/-- The number is read back as it is, unless it is not finite. -/
def Kept (x : Float) : Prop := x.isFinite = true → reread? x = some x

instance : DecidablePred Kept := fun x =>
  inferInstanceAs (Decidable (x.isFinite = true → reread? x = some x))

-- Not every finite number comes back: a numeral of seventeen digits may be read as a neighbour.
example : ¬ Kept 0.0010030090270812437 := by decide +kernel

theorem Kept.reread?_eq {x : Float} (h : Kept x) :
    reread? x = if x.isFinite then some x else none := by
  cases hFinite : x.isFinite with
  | true => exact h hFinite
  | false => rw [reread?, (numeral?_eq_none_iff x).mpr hFinite]; rfl

end Decimal

namespace Json.Document

theorem plain_ofFloat (x : Float) : (ofFloat x).Plain := by
  rw [ofFloat]
  cases h : Decimal.numeral? x with
  | none => exact .null
  | some n => exact .number (Decimal.plain_of_numeral? h)

theorem plain_ofString (s : String) : (ofString s).Plain := .text (Quoted.plain_ofText s)

theorem plain_ofList {items : List Document} (h : ∀ d ∈ items, d.Plain) : (ofList items).Plain :=
  .list h true

theorem plain_ofFields {fields : List (String × Document)} (h : ∀ f ∈ fields, f.2.Plain) :
    (ofFields fields).Plain := by
  refine .record ?_ ?_ true
  · exact List.forall_mem_map.mpr fun f _ => Quoted.plain_ofText f.1
  · exact List.forall_mem_map.mpr h

theorem reread_ofFloat (x : Float) : (ofFloat x).reread = ofFloat x := by
  rw [ofFloat]
  cases Decimal.numeral? x <;> rfl

theorem number?_ofFloat (x : Float) : (ofFloat x).number? = Decimal.reread? x := by
  rw [ofFloat, Decimal.reread?]
  cases Decimal.numeral? x <;> rfl

theorem text?_reread_ofString (s : String) : (ofString s).reread.text? = some s :=
  Quoted.text?_reread_ofText s

theorem reread_ofList (items : List Document) :
    (ofList items).reread = list (items.map reread) true := by
  rw [ofList, reread, rereadItems_eq_map]

/-- The fields of a record as they are read back. -/
def rereadNamed (fields : List (String × Document)) : List (Quoted × Document) :=
  fields.map fun f => ((Quoted.ofText f.1).reread, f.2.reread)

theorem reread_ofFields (fields : List (String × Document)) :
    (ofFields fields).reread = record (rereadNamed fields) true := by
  rw [ofFields, reread, rereadFields_eq_map, List.map_map]
  rfl

theorem all_text?_rereadNamed (fields : List (String × Document)) :
    (rereadNamed fields).all (fun f => f.1.text?.isSome) = true := by
  simp [rereadNamed, Quoted.text?_reread_ofText]

theorem fieldsNamed_cons (name key : String) (d : Document) (fields : List (String × Document)) :
    fieldsNamed name (rereadNamed ((key, d) :: fields)) =
      if key = name then d.reread :: fieldsNamed name (rereadNamed fields)
      else fieldsNamed name (rereadNamed fields) := by
  by_cases h : key = name
  · simp [fieldsNamed, rereadNamed, Quoted.text?_reread_ofText, h]
  · simp [fieldsNamed, rereadNamed, Quoted.text?_reread_ofText, h]

theorem fieldsNamed_of_notMem {name : String} {fields : List (String × Document)}
    (h : name ∉ fields.map Prod.fst) : fieldsNamed name (rereadNamed fields) = [] := by
  induction fields with
  | nil => rfl
  | cons f fields ih =>
    rw [List.map_cons, List.mem_cons, not_or] at h
    rw [fieldsNamed_cons, if_neg (Ne.symm h.1), ih h.2]

theorem fieldsNamed_of_mem {fields : List (String × Document)}
    (hNodup : (fields.map Prod.fst).Nodup) {f : String × Document} (hf : f ∈ fields) :
    fieldsNamed f.1 (rereadNamed fields) = [f.2.reread] := by
  induction fields with
  | nil => cases hf
  | cons g fields ih =>
    obtain ⟨hNew, hNodup⟩ := List.nodup_cons.mp hNodup
    obtain rfl | hf := List.mem_cons.mp hf
    · rw [fieldsNamed_cons, if_pos rfl, fieldsNamed_of_notMem hNew]
    · have hOther : g.1 ≠ f.1 := by
        intro hEq
        exact hNew (hEq ▸ List.mem_map_of_mem hf)
      rw [fieldsNamed_cons, if_neg hOther, ih hNodup hf]

/-- The chosen fields of a record with distinct names are found by their names. -/
theorem uniqueFields?_of_subset {fields : List (String × Document)}
    (hNodup : (fields.map Prod.fst).Nodup) (chosen : List (String × Document))
    (hChosen : ∀ f ∈ chosen, f ∈ fields) :
    uniqueFields? (chosen.map Prod.fst) (rereadNamed fields) =
      some (chosen.map fun f => f.2.reread) := by
  rw [uniqueFields?, List.mapM_map]
  refine mapM_eq_some_map fun f hf => ?_
  rw [Function.comp_apply, fieldsNamed_of_mem hNodup (hChosen f hf)]

theorem parts?_reread_ofFields (fields : List (String × Document))
    (hNodup : (fields.map Prod.fst).Nodup) :
    (ofFields fields).reread.parts? (fields.map Prod.fst) =
      some (fields.map fun f => f.2.reread) := by
  rw [reread_ofFields, parts?, if_pos (all_text?_rereadNamed fields)]
  exact uniqueFields?_of_subset hNodup fields fun f hf => hf

theorem fieldsSound_eq_all (room : Nat) (fields : List (Quoted × Document)) :
    fieldsSound room fields = fields.all (fieldSound room) := by
  induction fields with
  | nil => rfl
  | cons f fields ih => rw [fieldsSound, ih, List.all_cons]

theorem reread?_eq_none_of_not_sound {room : Nat} {x : Float} (h : sound room (ofFloat x) = false) :
    Decimal.reread? x = none := by
  rw [ofFloat] at h
  rw [Decimal.reread?]
  cases hNumeral : Decimal.numeral? x with
  | none => rfl
  | some n =>
    rw [hNumeral] at h
    simpa [sound] using h

end Json.Document

namespace Json

/-- Reading the text of a plain document. -/
theorem read_render {α : Type} (decode : Document → Except ReadFault α) {d : Document}
    (h : d.Plain) : read decode d.render = decode d.reread := by
  rw [read, Document.parse?_render h]
  dsimp only
  cases decode d.reread <;> rfl

theorem readWith_render {α : Type} (decode? : Document → Option α) {d : Document}
    (h : d.Plain) : readWith decode? d.render = required (decode? d.reread) :=
  read_render _ h

end Json

end FuzzyControl
