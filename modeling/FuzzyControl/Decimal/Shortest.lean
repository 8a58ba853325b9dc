import FuzzyControl.Decimal.Binary
import FuzzyControl.Decimal.Digits

/-! # The shortest decimal that reads back

Every double is the rounding of an interval of reals, and among the decimals in that interval one
with the fewest digits stands for it: the nearest such, of two equally near the one whose last digit
is even. The value and both ends of its interval are whole numbers on one decimal grid
(`Interval.ofBinary`), so the search for that decimal is exact: it tries to drop as many places of
the grid as possible (`Interval.roundest`).
-/
namespace FuzzyControl.Decimal

set_option autoImplicit false

/-- The number `coefficient · 10 ^ exponent`. -/
structure Scientific where
  coefficient : Nat
  exponent : Int
  deriving DecidableEq, Repr

/-- A number with the interval of the numbers that round to it, all in units of `10 ^ exponent`. -/
structure Interval where
  low : Nat
  value : Nat
  high : Nat
  closed : Bool
  exponent : Int
  deriving DecidableEq, Repr

namespace Interval

/-- The interval of a positive double. It reaches half way to both neighbours, of which the lower one
is nearer if the significand is the least of its exponent, and has its ends iff the significand is
even. -/
def ofBinary (b : Binary) : Interval :=
  let m := b.significand
  let e := b.exponent - 2
  let unit := if 0 ≤ e then Nat.pow 2 e.toNat else Nat.pow 5 (-e).toNat
  let below := if m = Binary.hiddenBit ∧ Binary.minExponent < b.exponent then 1 else 2
  { low := (4 * m - below) * unit
    value := 4 * m * unit
    high := (4 * m + 2) * unit
    closed := m % 2 == 0
    exponent := if 0 ≤ e then 0 else e }

def contains (i : Interval) (n : Nat) : Bool :=
  if i.closed then i.low ≤ n ∧ n ≤ i.high else i.low < n ∧ n < i.high

theorem contains_iff (i : Interval) (n : Nat) :
    i.contains n = true ↔
      (i.closed = true ∧ i.low ≤ n ∧ n ≤ i.high) ∨
        (i.closed = false ∧ i.low < n ∧ n < i.high) := by
  unfold contains; cases i.closed <;> simp

/-- The neighbour of the value on the grid of multiples of `10 ^ k` that lies in the interval, as a
count of `10 ^ k`. -/
def neighbour? (i : Interval) (k : Nat) : Option Nat :=
  let step := Nat.pow 10 k
  let below := i.value / step
  let rest := i.value % step
  match i.contains (below * step), i.contains ((below + 1) * step) with
  | true, true =>
    if 2 * rest < step then some below
    else if step < 2 * rest then some (below + 1)
    else if below % 2 = 0 then some below
    else some (below + 1)
  | true, false => some below
  | false, true => some (below + 1)
  | false, false => none

/-- The neighbour on the coarsest grid up to `10 ^ k` that has one in the interval. -/
def roundest (i : Interval) : Nat → Scientific
  | 0 => ⟨i.value, i.exponent⟩
  | k + 1 =>
    match i.neighbour? (k + 1) with
    | some n => ⟨n, i.exponent + (k + 1 : Nat)⟩
    | none => i.roundest k

theorem contains_of_neighbour? {i : Interval} {k n : Nat} (h : i.neighbour? k = some n) :
    i.contains (n * Nat.pow 10 k) = true := by
  simp only [neighbour?] at h
  split at h
  · split at h
    · simp_all
    · split at h
      · simp_all
      · split at h <;> simp_all
  · simp_all
  · simp_all
  · cases h

end Interval

def Scientific.trim (s : Scientific) : Nat → Scientific
  | 0 => s
  | fuel + 1 =>
    if s.coefficient % 10 = 0 ∧ s.coefficient ≠ 0 then
      Scientific.trim ⟨s.coefficient / 10, s.exponent + 1⟩ fuel
    else s

def shortest (b : Binary) : Scientific :=
  let i := Interval.ofBinary b
  let s := i.roundest ((digits i.value).length - 1)
  s.trim (digits s.coefficient).length

end FuzzyControl.Decimal
