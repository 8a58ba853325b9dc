import FuzzyControl.Json.Assembly

/-! # Reading values from texts

What a document means is told by a function on documents. A text is read by such a function, and
refused if it is no document or if something follows the document. A value that is named in the
document but does not exist is reported as such if it comes before every other fault.
-/
namespace FuzzyControl.Json

set_option autoImplicit false

inductive ReadFault where
  | refused
  | unknownStrategy (name : String)
  deriving DecidableEq, Repr

/-- How many lists and records may stand inside one another where a document is kept as it is. -/
def nestingLimit : Nat := 127

def required {α : Type} : Option α → Except ReadFault α
  | some x => .ok x
  | none => .error .refused

def read {α : Type} (decode : Document → Except ReadFault α) (s : String) : Except ReadFault α :=
  match parse? s with
  | none => .error .refused
  | some (d, ends) => do
    let x ← decode d
    if ends then pure x else .error .refused

/-- Reads a value that is refused for every fault alike. -/
def readWith {α : Type} (decode? : Document → Option α) (s : String) : Except ReadFault α :=
  read (fun d => required (decode? d)) s

theorem readWith_eq_ok_iff {α : Type} {decode? : Document → Option α} {s : String} {x : α} :
    readWith decode? s = .ok x ↔ ∃ d, parse? s = some (d, true) ∧ decode? d = some x := by
  rw [readWith, read]
  cases hParse : parse? s with
  | none => simp
  | some p =>
    obtain ⟨d, ends⟩ := p
    cases hDecode : decode? d <;> cases ends <;>
      simp [required, hDecode, bind, Except.bind, pure, Except.pure]

end FuzzyControl.Json
