import FuzzyControl.Decimal.Digits

/-! # Numerals

A numeral is a sign, the digits before and after the point, and a power of ten. It can be read as a
double in two ways. `Numeral.nearest` is the double nearest to its value. `Numeral.approximate?` works
with one 64-bit word of digits and rounds again when it scales them, so it is exact for numerals of up
to fifteen digits and moderate size but not in general; it has no value if the result is too large.
-/
namespace FuzzyControl.Decimal

set_option autoImplicit false

structure Numeral where
  negative : Bool
  whole : List Nat
  fraction : List Nat
  exponent : Int
  deriving DecidableEq, Repr

/-- The digits at the start of a text, and what follows them. -/
def spanDigits : List Char → List Nat × List Char
  | [] => ([], [])
  | c :: cs =>
    match digit? c with
    | some d => (d :: (spanDigits cs).1, (spanDigits cs).2)
    | none => ([], c :: cs)

/-- The point and the digits at the start of a text, if it starts with a point. -/
def spanFraction : List Char → Option (List Nat) × List Char
  | '.' :: cs => (some (spanDigits cs).1, (spanDigits cs).2)
  | cs => (none, cs)

def signed? : List Char → Option Int
  | '-' :: cs => (unsigned? cs).map fun n => -(n : Int)
  | '+' :: cs => (unsigned? cs).map fun n => (n : Int)
  | cs => (unsigned? cs).map fun n => (n : Int)
where
  unsigned? (cs : List Char) : Option Nat :=
    match spanDigits cs with
    | (d :: ds, []) => some (ofDigits (d :: ds))
    | _ => none

def exponent? : List Char → Option Int
  | [] => some 0
  | c :: cs => if c = 'e' ∨ c = 'E' then signed? cs else none

namespace Numeral

def withSign (n : Numeral) (x : Float) : Float := if n.negative then -x else x

def coefficient (n : Numeral) : Nat := ofDigits (n.whole ++ n.fraction)

def scale (n : Numeral) : Int := n.exponent - (n.fraction.length : Nat)

/-- Numbers of more digits before the point than this exceed every double. -/
def maxMagnitude : Int := 310

/-- Numbers that have this many zeros after the point are nearest to zero. -/
def minMagnitude : Int := -330

/-- The double nearest to the numeral. Extremes of size are decided by the number of digits, before
any power of ten is formed. -/
def nearest (n : Numeral) : Float :=
  let magnitude := n.scale + ((digits n.coefficient).length : Nat)
  n.withSign <|
    if n.coefficient = 0 ∨ magnitude < minMagnitude then 0.0
    else if maxMagnitude < magnitude then 1.0 / 0.0
    else if n.scale < 0 then Float.ofScientific n.coefficient true n.scale.natAbs
    else Float.ofScientific n.coefficient false n.scale.natAbs

def maxWord : Nat := Nat.pow 2 64 - 1

/-- Appends digits to a word until one does not fit; the digits from there on are left over. -/
def fill (word : Nat) : List Nat → Nat × List Nat
  | [] => (word, [])
  | d :: ds => if 10 * word + d ≤ maxWord then fill (10 * word + d) ds else (word, d :: ds)

/-- The first digits of the numeral, as many as fit a word, with the power of ten they count. Digits
after the point are tried again even if some before it did not fit. -/
def word (n : Numeral) : Nat × Int :=
  let (w, more) := fill 0 n.whole
  let (v, rest) := fill w n.fraction
  (v, (more.length : Nat) - ((n.fraction.length - rest.length : Nat) : Int))

/-- The greatest power of ten that is a double. -/
def maxPower : Nat := 308

def powerOfTen (k : Nat) : Float := Float.ofScientific 1 false k

/-- `x · 10 ^ k`; none if it is too large. -/
def scaleUp? (x : Float) (k : Nat) : Option Float :=
  if k ≤ maxPower then
    let y := x * powerOfTen k
    if y.isInf then none else some y
  else if x == 0.0 then some x
  else none

/-- `x / 10 ^ k` for a number `x` that comes from a word. Beyond twice the greatest power nothing is
left of it. -/
def scaleDown (x : Float) (k : Nat) : Float :=
  if k ≤ maxPower then x / powerOfTen k
  else x / powerOfTen maxPower / powerOfTen (min (k - maxPower) maxPower)

/-- Exponents above this are taken for infinite, whatever the point does to them. -/
def maxExponent : Nat := Nat.pow 2 31 - 1

/-- The numeral as a double, by way of one word of digits; none if it is too large. -/
def approximate? (n : Numeral) : Option Float :=
  let (w, k) := n.word
  let x := Float.ofNat w
  n.withSign <$>
    if maxExponent < n.exponent.natAbs then
      if w = 0 ∨ n.exponent < 0 then some 0.0 else none
    else
      let e := k + n.exponent
      if 0 ≤ e then scaleUp? x e.natAbs else some (scaleDown x e.natAbs)

end Numeral

end FuzzyControl.Decimal
