import FuzzyControl.Codec.Variable
import FuzzyControl.Proofs.Documents.Values

/-! # Variables are read back from their texts

The text of a variable, a term, a shape or a reference is read as what was written, but for its
numbers: each comes back as the number that its numeral is read as (`Variable.parse_render`). Names
always come back, and names and corners may be any. So if the finite numbers come back as they are, a
text is read exactly if all numbers in it are finite, since what is not finite is written as null.
-/
namespace FuzzyControl

set_option autoImplicit false

open Decimal (Kept)
open Json Json.Document

namespace Shape

def numbers (s : Shape) : List Float := s.parameters.map Prod.snd

/-- The shape with its numbers as they are read back. -/
def reread? (s : Shape) : Option Shape := (s.numbers.mapM Decimal.reread?).bind (ofNumbers? s.kind)

def parameterFields (s : Shape) : List (String × Document) :=
  s.parameters.map fun p => (p.1, ofFloat p.2)

theorem toDocument_eq (s : Shape) :
    s.toDocument = ofFields ((kindField, ofString s.kind) :: s.parameterFields) := rfl

theorem plain_toDocument (s : Shape) : s.toDocument.Plain := by
  refine plain_ofFields (List.forall_mem_cons.mpr ⟨plain_ofString _, ?_⟩)
  exact List.forall_mem_map.mpr fun p _ => plain_ofFloat p.2

theorem nodup_fields (s : Shape) :
    (((kindField, ofString s.kind) :: s.parameterFields).map Prod.fst).Nodup := by
  cases s <;> simp [kindField, parameterFields, parameters]

theorem mapM_number?_parameterFields (s : Shape) :
    (s.parameterFields.map fun f => f.2.reread).mapM number? = s.numbers.mapM Decimal.reread? := by
  simp only [parameterFields, numbers, List.map_map, List.mapM_map]
  congr 1
  funext p
  simp only [Function.comp_apply, reread_ofFloat, number?_ofFloat]

theorem mapM_reread?_of_not_sound {room : Nat} {s : Shape}
    (h : fieldsSound room (rereadNamed s.parameterFields) = false) :
    s.numbers.mapM Decimal.reread? = none := by
  rw [fieldsSound_eq_all, List.all_eq_false] at h
  obtain ⟨f, hf, hUnsound⟩ := h
  obtain ⟨g, hg, rfl⟩ := List.mem_map.mp hf
  obtain ⟨p, hp, rfl⟩ := List.mem_map.mp hg
  have hNumber : sound room (ofFloat p.2) = false := by
    simpa [fieldSound, Quoted.text?_reread_ofText, reread_ofFloat] using hUnsound
  exact mapM_eq_none_of_mem (List.mem_map_of_mem hp) (reread?_eq_none_of_not_sound hNumber)

theorem filter_ne_kindField (s : Shape) :
    (rereadNamed ((kindField, ofString s.kind) :: s.parameterFields)).filter
      (fun f => f.1.text? != some kindField) = rereadNamed s.parameterFields := by
  cases s <;> simp [rereadNamed, parameterFields, parameters, Quoted.text?_reread_ofText, kindField]

theorem ofDocument?_reread (outer : Nat) (s : Shape) :
    ofDocument? outer s.toDocument.reread = s.reread? := by
  have hTag : uniqueFields? [kindField]
      (rereadNamed ((kindField, ofString s.kind) :: s.parameterFields)) =
        some [(ofString s.kind).reread] :=
    uniqueFields?_of_subset s.nodup_fields [(kindField, ofString s.kind)] (by simp)
  have hParts := uniqueFields?_of_subset s.nodup_fields s.parameterFields
    fun f => List.mem_cons_of_mem _
  have hNames : parameterNames? s.kind = some (s.parameterFields.map Prod.fst) := by
    rw [length_parameters, parameterFields, List.map_map]
    rfl
  rw [toDocument_eq, reread_ofFields, ofDocument?, filter_ne_kindField]
  split
  · simp only [hTag, hNames, hParts, List.head?_cons, text?_reread_ofString, Option.bind_eq_bind,
      Option.bind_some, mapM_number?_parameterFields, reread?]
  · -- Only a number that is not read makes a field unsound, and then the shape has no numbers either.
    rename_i hUnsound
    rw [reread?, mapM_reread?_of_not_sound (Bool.eq_false_iff.mpr hUnsound)]
    rfl

theorem parse_render (s : Shape) : parse s.toDocument.render = required s.reread? := by
  rw [parse, readWith_render _ s.plain_toDocument, ofDocument?_reread]

theorem reread?_of_kept {s : Shape} (h : ∀ x ∈ s.numbers, Kept x) :
    s.reread? = if s.numbers.all Float.isFinite then some s else none := by
  have hNumbers := mapM_eq_ite (g := id) fun x hx => (h x hx).reread?_eq
  rw [reread?, hNumbers, List.map_id]
  split
  · exact ofNumbers?_parameters s
  · rfl

end Shape

namespace Term

def reread? (t : Term) : Option Term := t.shape.reread?.map (Term.mk t.name)

theorem plain_toDocument (t : Term) : t.toDocument.Plain :=
  plain_ofFields (by simpa using ⟨plain_ofString t.name, t.shape.plain_toDocument⟩)

theorem ofDocument?_reread (outer : Nat) (t : Term) :
    ofDocument? outer t.toDocument.reread = t.reread? := by
  have hParts : t.toDocument.reread.parts? ["name", "function"] =
      some [(ofString t.name).reread, t.shape.toDocument.reread] :=
    parts?_reread_ofFields [("name", _), ("function", _)] (by simp)
  rw [ofDocument?, hParts]
  simp only [Option.bind_eq_bind, Option.bind_some, text?_reread_ofString,
    Shape.ofDocument?_reread, reread?]
  cases t.shape.reread? <;> rfl

theorem parse_render (t : Term) : parse t.toDocument.render = required t.reread? := by
  rw [parse, readWith_render _ t.plain_toDocument, ofDocument?_reread]

theorem reread?_of_kept {t : Term} (h : ∀ x ∈ t.shape.numbers, Kept x) :
    t.reread? = if t.shape.numbers.all Float.isFinite then some t else none := by
  rw [reread?, Shape.reread?_of_kept h]
  split <;> rfl

end Term

namespace TermRef

theorem plain_toDocument (r : TermRef) : r.toDocument.Plain :=
  plain_ofFields (by simpa using ⟨plain_ofString r.owner, plain_ofString r.term⟩)

theorem parse_render (r : TermRef) : parse r.toDocument.render = .ok r := by
  have hParts : r.toDocument.reread.parts? ["variable", "shape"] =
      some [(ofString r.owner).reread, (ofString r.term).reread] :=
    parts?_reread_ofFields [("variable", _), ("shape", _)] (by simp)
  rw [parse, readWith_render _ r.plain_toDocument, ofDocument?, hParts]
  simp only [Option.bind_eq_bind, Option.bind_some, text?_reread_ofString]
  rfl

end TermRef

namespace Variable

def numbers (v : Variable) : List Float := v.terms.flatMap fun t => t.shape.numbers

def reread? (v : Variable) : Option Variable := (v.terms.mapM Term.reread?).map (Variable.mk v.name)

theorem plain_toDocument (v : Variable) : v.toDocument.Plain := by
  have hTerms : (ofList (v.terms.map Term.toDocument)).Plain :=
    plain_ofList (List.forall_mem_map.mpr fun t _ => t.plain_toDocument)
  exact plain_ofFields (by simpa using ⟨plain_ofString v.name, hTerms⟩)

theorem ofDocument?_reread (v : Variable) : ofDocument? v.toDocument.reread = v.reread? := by
  have hParts : v.toDocument.reread.parts? ["name", "terms"] =
      some [(ofString v.name).reread, (ofList (v.terms.map Term.toDocument)).reread] :=
    parts?_reread_ofFields [("name", _), ("terms", _)] (by simp)
  rw [ofDocument?, hParts]
  simp only [Option.bind_eq_bind, Option.bind_some, text?_reread_ofString, reread_ofList, items?,
    List.map_map, List.mapM_map, reread?]
  have hTerm : Term.ofDocument? 2 ∘ (Document.reread ∘ Term.toDocument) = Term.reread? := by
    funext t
    exact t.ofDocument?_reread 2
  rw [hTerm]
  cases v.terms.mapM Term.reread? <;> rfl

/-- The text of a variable is read as that variable with its numbers read back. -/
theorem parse_render (v : Variable) : parse v.toDocument.render = required v.reread? := by
  rw [parse, readWith_render _ v.plain_toDocument, ofDocument?_reread]

theorem reread?_of_kept {v : Variable} (h : ∀ x ∈ v.numbers, Kept x) :
    v.reread? = if v.numbers.all Float.isFinite then some v else none := by
  have hTerms : v.terms.mapM Term.reread? =
      if v.terms.all fun t => t.shape.numbers.all Float.isFinite then some (v.terms.map id)
      else none := by
    refine mapM_eq_ite fun t ht => t.reread?_of_kept fun x hx => ?_
    exact h x (List.mem_flatMap.mpr ⟨t, ht, hx⟩)
  rw [reread?, hTerms, List.map_id, numbers, List.all_flatMap]
  split <;> rfl

end Variable

theorem required_ite_eq_ok_iff {α : Type} {xs : List Float} {a b : α} :
    required (if xs.all Float.isFinite then some a else none) = .ok b ↔
      (∀ x ∈ xs, x.isFinite = true) ∧ b = a := by
  rw [← List.all_eq_true]
  split
  · rename_i hFinite
    simp [required, hFinite, eq_comm]
  · rename_i hFinite
    simp [required, hFinite]

/-- If the finite numbers in it come back, what is written is read again exactly if all its numbers
are finite, and then as itself. References have no numbers and are always read again. -/
theorem parse_render_eq_ok_iff :
    (∀ v w : Variable, (∀ x ∈ v.numbers, Kept x) →
      (Variable.parse v.toDocument.render = .ok w ↔
        (∀ x ∈ v.numbers, x.isFinite = true) ∧ w = v)) ∧
    (∀ t u : Term, (∀ x ∈ t.shape.numbers, Kept x) →
      (Term.parse t.toDocument.render = .ok u ↔
        (∀ x ∈ t.shape.numbers, x.isFinite = true) ∧ u = t)) ∧
    (∀ s r : Shape, (∀ x ∈ s.numbers, Kept x) →
      (Shape.parse s.toDocument.render = .ok r ↔
        (∀ x ∈ s.numbers, x.isFinite = true) ∧ r = s)) ∧
    (∀ r q : TermRef, TermRef.parse r.toDocument.render = .ok q ↔ q = r) := by
  refine ⟨?_, ?_, ?_, ?_⟩
  · intro v w h
    rw [v.parse_render, Variable.reread?_of_kept h, required_ite_eq_ok_iff]
  · intro t u h
    rw [t.parse_render, Term.reread?_of_kept h, required_ite_eq_ok_iff]
  · intro s r h
    rw [s.parse_render, Shape.reread?_of_kept h, required_ite_eq_ok_iff]
  · intro r q
    rw [r.parse_render, Except.ok.injEq, eq_comm]

/-- Two terms of one name, corners out of order, a negative zero, the least and a very large number,
and characters that cannot stand between quotes as they are. -/
def irregular : Variable where
  name := "\"tank\" \\ \x01\t𝄞"
  terms := [⟨"", .triangle 40.0 (-0.0) 5e-324⟩, ⟨"", .trapezoid 1e300 (-7.25) 0.1 2.5e-8⟩]

theorem parse_render_irregular :
    Variable.parse irregular.toDocument.render = .ok irregular ∧
      Term.parse (Term.mk "\n" (.triangle (-0.0) 0.0 (-0.1))).toDocument.render =
        .ok ⟨"\n", .triangle (-0.0) 0.0 (-0.1)⟩ ∧
      Shape.parse (Shape.triangle 0.5 0.25 0.1).toDocument.render = .ok (.triangle 0.5 0.25 0.1) ∧
      ∀ s, Shape.parse (Shape.triangle 0.0 1.0 (1.0 / 0.0)).toDocument.render ≠ .ok s := by
  obtain ⟨hVariable, hTerm, hShape, -⟩ := parse_render_eq_ok_iff
  refine ⟨(hVariable _ _ ?_).mpr ⟨?_, rfl⟩, (hTerm _ _ ?_).mpr ⟨?_, rfl⟩,
    (hShape _ _ ?_).mpr ⟨?_, rfl⟩, ?_⟩
  iterate 6 decide +kernel
  intro s hRead
  have hFinite := ((hShape _ s (by decide +kernel)).mp hRead).1
  revert hFinite
  decide +kernel

end FuzzyControl
