import FuzzyControl.Decimal.Fixed

/-! # Degrees of membership

A degree says how far a value belongs to a fuzzy set, or how far a statement holds. Degrees are
combined by Zadeh's operators: minimum for "and", maximum for "or", complement to one for "not".
`Degree.clamp` brings any number into the unit interval. A degree read from a document is taken as
it stands, so the type itself does not bound the value.
-/
namespace FuzzyControl

set_option autoImplicit false

structure Degree where
  value : Float

namespace Degree

def zero : Degree := ⟨0.0⟩

def one : Degree := ⟨1.0⟩

instance : Inhabited Degree := ⟨zero⟩

/-- The nearest number of the unit interval. An undefined number belongs to nothing, and a negative
zero, which lies in the interval, is kept. -/
def clamp (x : Float) : Degree :=
  if x.isNaN then zero
  else if x < 0.0 then zero
  else if 1.0 < x then one
  else ⟨x⟩

def and (a b : Degree) : Degree :=
  if b.value < a.value then b else a

def or (a b : Degree) : Degree :=
  if a.value < b.value then b else a

def not (a : Degree) : Degree :=
  ⟨1.0 - a.value⟩

/-- A statement counts as soon as its degree is above zero. -/
def isPositive (a : Degree) : Bool :=
  0.0 < a.value

/-- Equal numbers: the two zeros agree. -/
instance : BEq Degree := ⟨fun a b => a.value == b.value⟩

/-- The order of two degrees as numbers; none if one of them is undefined. -/
def compare? (a b : Degree) : Option Ordering :=
  if a.value < b.value then some .lt
  else if b.value < a.value then some .gt
  else if a.value == b.value then some .eq
  else none

def display (a : Degree) : String :=
  "⟨" ++ Decimal.fixed 2 (Decimal.Binary.ofFloat a.value) ++ "⟩"

@[simp] theorem value_not (a : Degree) : a.not.value = 1.0 - a.value := rfl

theorem and_eq_or (a b : Degree) : a.and b = a ∨ a.and b = b := by
  unfold and; split <;> simp

theorem or_eq_or (a b : Degree) : a.or b = a ∨ a.or b = b := by
  unfold or; split <;> simp

theorem clamp_of_isNaN {x : Float} (h : x.isNaN = true) : clamp x = zero := if_pos h

theorem isPositive_iff (a : Degree) : a.isPositive = true ↔ 0.0 < a.value := by
  simp [isPositive]

end Degree

end FuzzyControl
