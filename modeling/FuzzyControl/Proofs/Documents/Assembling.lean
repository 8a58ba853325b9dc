import FuzzyControl.Json.Assembly
import FuzzyControl.Proofs.Documents.Scanning

/-! # Documents are read as they are written

A document whose numerals and texts are plain is read back from what `Document.render` writes
(`parse?_render`), with its control characters as units and every list and record complete. The
induction is on the document, and its statement holds wherever a value can stand: for all open frames
and all that may follow (`ReadAs`). Lists and records carry that statement from their parts to
themselves, both by the same run over the parts and separators (`Enclosure.assemble_parts`).
-/
namespace FuzzyControl.Json

set_option autoImplicit false

open Token (scan)

/-- What assembling comes to once a value is complete. -/
def resume (d : Document) : List Frame → List Token → Option (Document × Bool)
  | [], ts => some (d, ts.isEmpty)
  | f :: fs, ts => assemble .separator (f.add d :: fs) ts

theorem assemble_of_value {e : Expected} {frames fs : List Frame} {t : Token} {d : Document}
    (h : step e frames t = Step.value d fs) (ts : List Token) :
    assemble e frames (t :: ts) = resume d fs ts := by
  cases fs with
  | nil => exact assemble_of_ended h ts
  | cons f fs => exact assemble_of_more h ts

/-- The characters are read as the document wherever a value can stand and has an end. -/
def ReadAs (cs : List Char) (d : Document) : Prop :=
  ∀ (fresh : Bool) (frames : List Frame) (rest : List Char), Ends rest →
    assemble (.value fresh) frames (scan .between (cs ++ rest)) =
      resume d frames (scan .between rest)

theorem readAs_of_scan {cs : List Char} {t : Token} {d : Document} (hScalar : scalar? t = some d)
    (hScan : ∀ rest, Ends rest → scan .between (cs ++ rest) = t :: scan .between rest) :
    ReadAs cs d := by
  intro fresh frames rest hRest
  rw [hScan rest hRest]
  refine assemble_of_value ?_ _
  have hOpened : opened? t = none := by
    cases t <;> first | rfl | cases hScalar
  simp only [step, Step.ofValue, hOpened, hScalar]

theorem readAs_word {cs : List Char} {d : Document} (hNil : cs ≠ []) (hcs : cs.all isWordChar = true)
    (hScalar : scalar? (Token.ofWord cs) = some d) : ReadAs cs d :=
  readAs_of_scan hScalar fun _ => scan_between_word hNil hcs

namespace Document

theorem separate_cons (mark : Char) (x : List Char) (xs : List (List Char)) :
    separate mark (x :: xs) = x ++ xs.flatMap (mark :: ·) := by
  induction xs generalizing x with
  | nil => rw [separate, List.flatMap_nil, List.append_nil]
  | cons y xs ih => rw [separate, ih, List.flatMap_cons, List.cons_append]

theorem itemChars_eq_map (items : List Document) : itemChars items = items.map chars := by
  induction items with
  | nil => rfl
  | cons d ds ih => rw [itemChars, ih, List.map_cons]

theorem fieldsChars_eq_map (fields : List (Quoted × Document)) :
    fieldsChars fields = fields.map fieldChars := by
  induction fields with
  | nil => rfl
  | cons f fs ih => rw [fieldsChars, ih, List.map_cons]

end Document

/-- What stands behind a part of a list or record: further parts, each behind a comma, and the mark
that closes it. -/
def following (parts : List (List Char)) (close : Char) (rest : List Char) : List Char :=
  parts.flatMap (',' :: ·) ++ close :: rest

theorem following_cons (x : List Char) (xs : List (List Char)) (close : Char) (rest : List Char) :
    following (x :: xs) close rest = ',' :: (x ++ following xs close rest) := by
  simp only [following, List.flatMap_cons, List.cons_append, List.append_assoc]

/-- How parts stand between two marks: the text of each, what is expected where one may stand (the flag
tells that none has been read), and the open frame and the finished document that they make, told by
the parts from the last to the first. -/
structure Enclosure (γ : Type) where
  text : γ → List Char
  expect : Bool → Expected
  frame : List γ → Frame
  closed : List γ → Document
  close : Char
  mark : Token
  mark?_close : Token.mark? close = some mark
  afterComma : ∀ done, (frame done).afterComma = expect false
  step_empty : ∀ fs, step (expect true) (frame [] :: fs) mark = Step.value (closed []) fs
  step_close : ∀ done fs, step .separator (frame done :: fs) mark = Step.value (closed done) fs

namespace Enclosure

variable {γ : Type} (b : Enclosure γ)

/-- The part is added to the open frame wherever it may stand. -/
def Adds (p : γ) : Prop :=
  ∀ (fresh : Bool) (done : List γ) (fs : List Frame) (rest : List Char), Ends rest →
    assemble (b.expect fresh) (b.frame done :: fs) (scan .between (b.text p ++ rest)) =
      assemble .separator (b.frame (p :: done) :: fs) (scan .between rest)

theorem ends_following (parts : List (List Char)) (rest : List Char) :
    Ends (following parts b.close rest) := by
  cases parts with
  | nil => exact ends_cons (by rw [b.mark?_close, Option.isSome_some]) rest
  | cons x xs => exact ends_cons rfl _

variable {b}

theorem assemble_following {parts : List γ} (h : ∀ p ∈ parts, b.Adds p) (done : List γ)
    (fs : List Frame) (rest : List Char) :
    assemble .separator (b.frame done :: fs)
        (scan .between (following (parts.map b.text) b.close rest)) =
      resume (b.closed (parts.reverse ++ done)) fs (scan .between rest) := by
  -- By induction on the parts to come, for all that have been added before.
  induction parts generalizing done with
  | nil =>
    rw [List.map_nil, following, List.flatMap_nil, List.nil_append,
      scan_between_mark b.mark?_close, assemble_of_value (b.step_close done fs), List.reverse_nil,
      List.nil_append]
  | cons p ps ih =>
    obtain ⟨hp, hps⟩ := List.forall_mem_cons.mp h
    rw [List.map_cons, following_cons, scan_between_mark rfl, assemble_of_more rfl, b.afterComma,
      hp false done fs _ (b.ends_following _ _), ih hps, List.reverse_cons, List.append_assoc,
      List.singleton_append]

/-- All parts and the closing mark, from the opening mark on. -/
theorem assemble_parts {parts : List γ} (h : ∀ p ∈ parts, b.Adds p) (fs : List Frame)
    (rest : List Char) :
    assemble (b.expect true) (b.frame [] :: fs)
        (scan .between (Document.separate ',' (parts.map b.text) ++ b.close :: rest)) =
      resume (b.closed parts.reverse) fs (scan .between rest) := by
  cases parts with
  | nil =>
    rw [List.map_nil, Document.separate, List.nil_append, scan_between_mark b.mark?_close,
      assemble_of_value (b.step_empty fs), List.reverse_nil]
  | cons p ps =>
    obtain ⟨hp, hps⟩ := List.forall_mem_cons.mp h
    rw [List.map_cons, Document.separate_cons, List.append_assoc, List.reverse_cons]
    refine (hp true [] fs _ (b.ends_following (ps.map b.text) rest)).trans ?_
    exact assemble_following hps [p] fs rest

end Enclosure

open Document

section

variable {reread : Document → Document}

def Enclosure.list (reread : Document → Document) : Enclosure Document where
  text := chars
  expect := .value
  frame done := .list (done.map reread)
  closed done := .list (done.map reread).reverse true
  close := ']'
  mark := .closeList
  mark?_close := rfl
  afterComma _ := rfl
  step_empty _ := rfl
  step_close _ _ := rfl

theorem Enclosure.closed_list (done : List Document) :
    (Enclosure.list reread).closed done = .list (done.map reread).reverse true := rfl

theorem readAs_list {items : List Document} (h : ∀ d ∈ items, ReadAs d.chars (reread d))
    (complete : Bool) : ReadAs (list items complete).chars (.list (items.map reread) true) := by
  intro fresh frames rest _
  have hAdds : ∀ d ∈ items, (Enclosure.list reread).Adds d :=
    fun d hd fresh done fs => h d hd fresh (.list (done.map reread) :: fs)
  rw [chars, itemChars_eq_map, List.cons_append, List.cons_append, scan_between_mark rfl,
    assemble_of_more rfl, List.append_assoc, List.singleton_append]
  refine (Enclosure.assemble_parts hAdds frames rest).trans ?_
  rw [Enclosure.closed_list, List.map_reverse, List.reverse_reverse]

def Enclosure.record (reread : Document → Document) : Enclosure (Quoted × Document) where
  text := fieldChars
  expect := .key
  frame done := .record (done.map fun f => (f.1.reread, reread f.2))
  closed done := .record (done.map fun f => (f.1.reread, reread f.2)).reverse true
  close := '\x7d'
  mark := .closeRecord
  mark?_close := rfl
  afterComma _ := rfl
  step_empty _ := rfl
  step_close _ _ := rfl

theorem Enclosure.closed_record (done : List (Quoted × Document)) :
    (Enclosure.record reread).closed done =
      .record (done.map fun f => (f.1.reread, reread f.2)).reverse true := rfl

theorem adds_field {f : Quoted × Document} (hKey : f.1.Plain)
    (h : ReadAs f.2.chars (reread f.2)) : (Enclosure.record reread).Adds f := by
  obtain ⟨key, d⟩ := f
  intro fresh done fs rest hRest
  change assemble (.key fresh) (.record (done.map fun f => (f.1.reread, reread f.2)) :: fs)
    (scan .between (fieldChars (key, d) ++ rest)) = _
  rw [fieldChars, List.append_assoc, hKey.scan_render, assemble_of_more rfl, List.cons_append,
    scan_between_mark rfl, assemble_of_more rfl]
  -- The value now stands in a frame that has its key and becomes a record by it.
  exact h false _ _ hRest

theorem readAs_record {fields : List (Quoted × Document)} (hKeys : ∀ f ∈ fields, f.1.Plain)
    (h : ∀ f ∈ fields, ReadAs f.2.chars (reread f.2)) (complete : Bool) :
    ReadAs (record fields complete).chars
      (.record (fields.map fun f => (f.1.reread, reread f.2)) true) := by
  intro fresh frames rest _
  have hAdds : ∀ f ∈ fields, (Enclosure.record reread).Adds f :=
    fun f hf => adds_field (hKeys f hf) (h f hf)
  rw [chars, fieldsChars_eq_map, List.cons_append, List.cons_append, scan_between_mark rfl,
    assemble_of_more rfl, List.append_assoc, List.singleton_append]
  refine (Enclosure.assemble_parts hAdds frames rest).trans ?_
  rw [Enclosure.closed_record, List.map_reverse, List.reverse_reverse]

end

namespace Document

mutual

/-- The document that the text of a document is read as. -/
def reread : Document → Document
  | null => null
  | bool b => bool b
  | number n => number n
  | text q => text q.reread
  | list items _ => list (rereadItems items) true
  | record fields _ => record (rereadFields fields) true

def rereadItems : List Document → List Document
  | [] => []
  | d :: ds => reread d :: rereadItems ds

def rereadFields : List (Quoted × Document) → List (Quoted × Document)
  | [] => []
  | f :: fs => rereadField f :: rereadFields fs

def rereadField : Quoted × Document → Quoted × Document
  | (key, d) => (key.reread, reread d)

end

theorem rereadItems_eq_map (items : List Document) : rereadItems items = items.map reread := by
  induction items with
  | nil => rfl
  | cons d ds ih => rw [rereadItems, ih, List.map_cons]

theorem rereadFields_eq_map (fields : List (Quoted × Document)) :
    rereadFields fields = fields.map fun f => (f.1.reread, f.2.reread) := by
  induction fields with
  | nil => rfl
  | cons f fs ih => rw [rereadFields, ih, List.map_cons, rereadField]

/-- All numerals and texts of the document are plain. -/
inductive Plain : Document → Prop
  | null : Plain null
  | bool (b : Bool) : Plain (bool b)
  | number {n : Decimal.Numeral} (h : n.Plain) : Plain (number n)
  | text {q : Quoted} (h : q.Plain) : Plain (text q)
  | list {items : List Document} (h : ∀ d ∈ items, Plain d) (complete : Bool) :
      Plain (list items complete)
  | record {fields : List (Quoted × Document)} (hKeys : ∀ f ∈ fields, f.1.Plain)
      (h : ∀ f ∈ fields, Plain f.2) (complete : Bool) : Plain (record fields complete)

theorem Plain.readAs {d : Document} (h : d.Plain) : ReadAs d.chars d.reread := by
  induction h with
  | null => exact readAs_word (by decide) (by decide) rfl
  | bool b => cases b <;> exact readAs_word (by decide) (by decide) rfl
  | number h => exact readAs_of_scan rfl fun _ => scan_between_numeral h
  | text h => exact readAs_of_scan rfl fun rest _ => h.scan_render rest
  | list h complete ih =>
    rw [reread, rereadItems_eq_map]
    exact readAs_list ih complete
  | record hKeys h complete ih =>
    rw [reread, rereadFields_eq_map]
    exact readAs_record hKeys ih complete

/-- A plain document is read back from its text. -/
theorem parse?_render {d : Document} (h : d.Plain) : parse? d.render = some (d.reread, true) := by
  have hRead := h.readAs false [] [] ends_nil
  rw [List.append_nil] at hRead
  rw [parse?, Token.ofText, render, String.toList_ofList, hRead]
  rfl

end Document

end FuzzyControl.Json
