import FuzzyControl.Decimal.Binary
import FuzzyControl.Decimal.Digits

/-! # A fixed number of decimal places

The exact value of a finite double is rounded to `n` places, a half going to the even neighbour, and
written with all its places. The sign is kept, also before zero.
-/
namespace FuzzyControl.Decimal

set_option autoImplicit false

/-- The whole number nearest to `num / den`; of two, the even one. -/
def roundHalfEven (num den : Nat) : Nat :=
  let q := num / den
  let r := num % den
  if 2 * r < den then q
  else if den < 2 * r then q + 1
  else if q % 2 = 0 then q
  else q + 1

/-- `|b| · 10 ^ places`, rounded. -/
def scaled (places : Nat) (b : Binary) : Nat :=
  if 0 ≤ b.exponent then b.significand * Nat.pow 2 b.exponent.toNat * Nat.pow 10 places
  else roundHalfEven (b.significand * Nat.pow 10 places) (Nat.pow 2 (-b.exponent).toNat)

def fixed (places : Nat) (b : Binary) : String :=
  let n := scaled places b
  let fraction := digits (n % Nat.pow 10 places)
  String.ofList ((if b.negative then ['-'] else []) ++ digits (n / Nat.pow 10 places) ++ ['.'] ++
    List.replicate (places - fraction.length) '0' ++ fraction)

end FuzzyControl.Decimal
