import FuzzyControl.Degree
import FuzzyControl.Json.Reader
import FuzzyControl.Shape

/-! # Degrees and shapes in documents

A degree is a number, taken as it stands. A shape is a record that names its kind in the field `shape`
and its corners in the fields `a`, `b`, `c` and, for a trapezoid, `d`, or a list of the kind and the
corners. Nothing is asked of the corners but that they are numbers.
-/
namespace FuzzyControl

set_option autoImplicit false

open Json (Document Quoted)

namespace Degree

def toDocument (d : Degree) : Document := .ofFloat d.value

def ofDocument? (d : Document) : Option Degree := d.number?.map Degree.mk

def parse (text : String) : Except Json.ReadFault Degree := Json.readWith ofDocument? text

end Degree

namespace Shape

def kindField : String := "shape"

def kind : Shape → String
  | triangle .. => "triangle"
  | trapezoid .. => "trapezoid"

/-- The numbers of a shape by name, in the order in which they are written. -/
def parameters : Shape → List (String × Float)
  | triangle a b c => [("a", a), ("b", b), ("c", c)]
  | trapezoid a b c d => [("a", a), ("b", b), ("c", c), ("d", d)]

def toDocument (s : Shape) : Document :=
  .ofFields ((kindField, .ofString s.kind) :: s.parameters.map fun p => (p.1, .ofFloat p.2))

def parameterNames? (kind : String) : Option (List String) :=
  if kind = "triangle" then some ["a", "b", "c"]
  else if kind = "trapezoid" then some ["a", "b", "c", "d"]
  else none

def ofNumbers? (kind : String) (xs : List Float) : Option Shape :=
  match kind, xs with
  | "triangle", [a, b, c] => some (triangle a b c)
  | "trapezoid", [a, b, c, d] => some (trapezoid a b c d)
  | _, _ => none

/-- The shape of a document that stands inside `outer` lists and records. The fields of a record are
kept until the kind is known, so all of them have to be sound, those of other names too. -/
def ofDocument? (outer : Nat) : Document → Option Shape
  | .record fields true => do
    let room := Json.nestingLimit - (outer + 1)
    let others := fields.filter fun f => f.1.text? != some kindField
    if Document.fieldsSound room others then
      let tag ← Document.uniqueFields? [kindField] fields
      let kind ← tag.head?.bind Document.text?
      let names ← parameterNames? kind
      let parts ← Document.uniqueFields? names fields
      ofNumbers? kind (← parts.mapM Document.number?)
    else none
  | .list (tag :: parts) true => do
    ofNumbers? (← tag.text?) (← parts.mapM Document.number?)
  | _ => none

def parse (text : String) : Except Json.ReadFault Shape := Json.readWith (ofDocument? 0) text

theorem length_parameters (s : Shape) :
    parameterNames? s.kind = some (s.parameters.map Prod.fst) := by
  cases s <;> rfl

theorem ofNumbers?_parameters (s : Shape) :
    ofNumbers? s.kind (s.parameters.map Prod.snd) = some s := by
  cases s <;> rfl

end Shape

end FuzzyControl
