/-! # Ranges of characters

Properties of characters are given as lists of ranges of code points.
-/
namespace FuzzyControl.Text

set_option autoImplicit false

/-- The characters from code point `first` to `last`, both included. -/
structure CharRange where
  first : Nat
  last : Nat

namespace CharRange

def contains (r : CharRange) (c : Char) : Bool :=
  r.first ≤ c.toNat && c.toNat ≤ r.last

end CharRange

end FuzzyControl.Text
