/-! # Decimal digits of natural numbers

`digits n` writes a number in base ten without leading zeros, and `ofDigits` reads digits back.
-/
namespace FuzzyControl.Decimal

set_option autoImplicit false

def digits (n : Nat) : List Char := Nat.toDigits 10 n

def digit? (c : Char) : Option Nat :=
  if '0' ≤ c ∧ c ≤ '9' then some (c.toNat - '0'.toNat) else none

/-- The number that the digits of `ds` spell after those that make up `n`. -/
def appendDigits (n : Nat) (ds : List Nat) : Nat :=
  ds.foldl (fun m d => 10 * m + d) n

def ofDigits (ds : List Nat) : Nat := appendDigits 0 ds

@[simp] theorem appendDigits_nil (n : Nat) : appendDigits n [] = n := rfl

@[simp] theorem appendDigits_cons (n d : Nat) (ds : List Nat) :
    appendDigits n (d :: ds) = appendDigits (10 * n + d) ds := rfl

theorem appendDigits_append (n : Nat) (ds es : List Nat) :
    appendDigits n (ds ++ es) = appendDigits (appendDigits n ds) es := by
  simp [appendDigits]

end FuzzyControl.Decimal
