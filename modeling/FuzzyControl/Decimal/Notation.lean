import FuzzyControl.Decimal.Numeral
import FuzzyControl.Decimal.Shortest

/-! # Numbers in documents

How a double is written in a document. Its digits are those of the shortest decimal that reads back.
A number from `10 ^ -5` up to `10 ^ 16` is written with a point and at least one digit after it, any
other with one digit before the point, none after it unless needed, and an exponent with its sign.
Zero keeps its sign, and a number that is not finite has no numeral.
-/
namespace FuzzyControl.Decimal

set_option autoImplicit false

def digitValues (n : Nat) : List Nat := (digits n).filterMap digit?

/-- A number with the digits `ds`, the first of which counts `10 ^ magnitude`, without exponent. -/
def positional (negative : Bool) (ds : List Nat) (magnitude : Int) : Numeral :=
  if magnitude < 0 then
    ⟨negative, [0], List.replicate ((-magnitude).toNat - 1) 0 ++ ds, 0⟩
  else
    let whole := magnitude.toNat + 1
    if ds.length ≤ whole then ⟨negative, ds ++ List.replicate (whole - ds.length) 0, [0], 0⟩
    else ⟨negative, ds.take whole, ds.drop whole, 0⟩

def exponential (negative : Bool) (ds : List Nat) (magnitude : Int) : Numeral :=
  ⟨negative, ds.take 1, ds.drop 1, magnitude⟩

/-- Numbers with a first digit of this power of ten or more are written with an exponent. -/
def largeMagnitude : Int := 16

def smallMagnitude : Int := -5

def Scientific.numeral (negative : Bool) (s : Scientific) : Numeral :=
  let ds := digitValues s.coefficient
  let magnitude := s.exponent + (ds.length : Nat) - 1
  if smallMagnitude ≤ magnitude ∧ magnitude < largeMagnitude then positional negative ds magnitude
  else exponential negative ds magnitude

/-- The numeral of a double; none if it is not finite. -/
def numeral? (x : Float) : Option Numeral :=
  if x.isFinite then
    let b := Binary.ofFloat x
    if b.significand = 0 then some ⟨b.negative, [0], [0], 0⟩
    else some ((shortest b).numeral b.negative)
  else none

theorem numeral?_eq_none_iff (x : Float) : numeral? x = none ↔ x.isFinite = false := by
  unfold numeral?
  split
  · simp only [*, Bool.true_eq_false, iff_false]
    split <;> simp
  · simp_all

def digitChar (d : Nat) : Char := Char.ofNat (48 + d)

/-- The text of a numeral, as characters. A point and an exponent appear only if they are needed. -/
def Numeral.chars (n : Numeral) : List Char :=
  (if n.negative then ['-'] else []) ++ n.whole.map digitChar ++
    (if n.fraction.isEmpty then [] else '.' :: n.fraction.map digitChar) ++
    (if n.exponent = 0 then []
      else 'e' :: (if n.exponent < 0 then '-' else '+') :: digits n.exponent.natAbs)

end FuzzyControl.Decimal
