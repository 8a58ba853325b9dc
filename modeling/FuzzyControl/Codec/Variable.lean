import FuzzyControl.Codec.Shape
import FuzzyControl.Variable

/-! # Variables in documents

A term is written by its name and its shape, a reference by the names of the variable and the term, and
a variable by its name and the list of its terms. Nothing is asked of names and shapes on reading.
-/
namespace FuzzyControl

set_option autoImplicit false

open Json (Document)

namespace Term

def toDocument (t : Term) : Document :=
  .ofFields [("name", .ofString t.name), ("function", t.shape.toDocument)]

/-- The term of a document that stands inside `outer` lists and records. -/
def ofDocument? (outer : Nat) (d : Document) : Option Term := do
  match ← d.parts? ["name", "function"] with
  | [name, shape] => pure ⟨← name.text?, ← Shape.ofDocument? (outer + 1) shape⟩
  | _ => none

def parse (text : String) : Except Json.ReadFault Term := Json.readWith (ofDocument? 0) text

end Term

namespace TermRef

def toDocument (r : TermRef) : Document :=
  .ofFields [("variable", .ofString r.owner), ("shape", .ofString r.term)]

def ofDocument? (d : Document) : Option TermRef := do
  match ← d.parts? ["variable", "shape"] with
  | [owner, term] => pure ⟨← owner.text?, ← term.text?⟩
  | _ => none

def parse (text : String) : Except Json.ReadFault TermRef := Json.readWith ofDocument? text

end TermRef

namespace Variable

def toDocument (v : Variable) : Document :=
  .ofFields [("name", .ofString v.name), ("terms", .ofList (v.terms.map Term.toDocument))]

def ofDocument? (d : Document) : Option Variable := do
  match ← d.parts? ["name", "terms"] with
  | [name, terms] => pure ⟨← name.text?, ← (← terms.items?).mapM (Term.ofDocument? 2)⟩
  | _ => none

def parse (text : String) : Except Json.ReadFault Variable := Json.readWith ofDocument? text

end Variable

end FuzzyControl
