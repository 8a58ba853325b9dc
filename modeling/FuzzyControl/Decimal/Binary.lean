/-! # Doubles as exact numbers

A finite double is a whole number times a power of two. `Binary.ofFloat` takes it apart by the fields
of its bit pattern: one sign bit, eleven bits of exponent and fifty-two of fraction.
-/
namespace FuzzyControl.Decimal

set_option autoImplicit false

/-- The number `±significand · 2 ^ exponent`. -/
structure Binary where
  negative : Bool
  significand : Nat
  exponent : Int
  deriving DecidableEq, Repr

namespace Binary

/-- The least exponent of a double: that of the subnormal numbers. -/
def minExponent : Int := -1074

/-- The significand of a normal number has its leading one here. -/
def hiddenBit : Nat := Nat.pow 2 52

def ofFloat (x : Float) : Binary :=
  let bits : Nat := x.toBits.toNat
  let fraction : Nat := bits % Nat.pow 2 52
  let field : Nat := bits / Nat.pow 2 52 % Nat.pow 2 11
  { negative := bits / Nat.pow 2 63 == 1
    significand := if field = 0 then fraction else hiddenBit + fraction
    exponent := if field = 0 then minExponent else (field : Int) - 1 + minExponent }

end Binary

end FuzzyControl.Decimal
