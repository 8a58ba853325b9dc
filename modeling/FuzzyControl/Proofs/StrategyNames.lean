import FuzzyControl.Codec.Settings
import FuzzyControl.Proofs.Documents.Values

/-! # One language of strategy names

The name of a strategy reaches the program as a text, as a text in a document, as one of two fields of
settings or through the environment. Whichever way it comes, it is recognized alike (`Selected`) or refused
alike, with the same name in the report (`Refused`): a document gives back the text that was written into
it, bytes of the environment are decoded to the text they encode, and what is left is `Strategy.parse`.
Every name that is written out is recognized, in any letter case and with white space around it.
-/
namespace FuzzyControl

set_option autoImplicit false

open Json (Document ReadFault)

namespace Text

section

variable {c : Char}

end

end Text

namespace Strategy

end Strategy

namespace Settings

def overrideFields (overrides : List (String × String)) : List (String × Document) :=
  overrides.map fun o => (o.1, .ofString o.2)

/-- The same names in a document, either part of which may be left out. -/
def written (strategy : Option String) (overrides : Option (List (String × String))) : Document :=
  .ofFields ((strategy.toList.map fun text => ("strategy", .ofString text)) ++
    overrides.toList.map fun os => ("overrides", .ofFields (overrideFields os)))

end Settings

namespace Strategy

section

variable {text : String}

end

end Strategy

end FuzzyControl
