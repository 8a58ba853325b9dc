import FuzzyControl.Fault
import FuzzyControl.Text.Blank
import FuzzyControl.Text.LowerCase

/-! # Strategies of defuzzification

The strategy says which point stands for a shape when a fuzzy set is reduced to one number.
`Strategy.parse` reads its name in any letter case, with blanks around it, and knows short forms.
-/
namespace FuzzyControl

set_option autoImplicit false

inductive Strategy where
  | centroid
  | middleOfMaximum
  deriving DecidableEq, Repr

namespace Strategy

instance : Inhabited Strategy := ⟨centroid⟩

def point : Strategy → Shape → Float
  | centroid, s => s.centroid
  | middleOfMaximum, s => s.middleOfMaximum

def name : Strategy → String
  | centroid => "centroid"
  | middleOfMaximum => "middle_of_maximum"

def names : Strategy → List String
  | centroid => ["centroid", "cog"]
  | middleOfMaximum => ["middle_of_maximum", "middleofmaximum", "mom"]

def all : List Strategy := [centroid, middleOfMaximum]

/-- A name as it is compared: without the blanks around it and in lower case. -/
def normalize (text : String) : String :=
  Text.lowerCase (String.ofList (Text.trim text.toList))

def ofName? (name : String) : Option Strategy :=
  all.find? fun s => s.names.contains name

def parse (text : String) : Except Fault Strategy :=
  match ofName? (normalize text) with
  | some s => .ok s
  | none => .error (.unknownStrategy (normalize text))

end Strategy

end FuzzyControl
