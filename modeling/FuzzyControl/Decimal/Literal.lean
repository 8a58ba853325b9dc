import FuzzyControl.Decimal.Numeral

/-! # Literals

A literal is a number as a person types it: an optional sign, digits with a point anywhere or nowhere
among them, and an optional exponent. Infinity and the undefined number are written as words, in any
letter case.
-/
namespace FuzzyControl.Decimal

set_option autoImplicit false

inductive LiteralFlaw where
  | empty
  | malformed
  deriving DecidableEq, Repr

namespace LiteralFlaw

def message : LiteralFlaw → String
  | empty => "cannot parse float from empty string"
  | malformed => "invalid float literal"

end LiteralFlaw

def unsignedNumeral? (negative : Bool) (cs : List Char) : Option Numeral :=
  let (whole, afterWhole) := spanDigits cs
  let (fraction, rest) := spanFraction afterWhole
  let ds := fraction.getD []
  if whole.isEmpty ∧ ds.isEmpty then none
  else (exponent? rest).map fun e => ⟨negative, whole, ds, e⟩

def namedNumber? (cs : List Char) : Option Float :=
  let w := cs.map Char.toLower
  if w = ['i', 'n', 'f'] ∨ w = ['i', 'n', 'f', 'i', 'n', 'i', 't', 'y'] then some (1.0 / 0.0)
  else if w = ['n', 'a', 'n'] then some (0.0 / 0.0)
  else none

def unsignedLiteral? (negative : Bool) (cs : List Char) : Option Float :=
  match unsignedNumeral? negative cs with
  | some n => some n.nearest
  | none => (namedNumber? cs).map fun x => if negative then -x else x

def literal (text : String) : Except LiteralFlaw Float :=
  match text.toList with
  | [] => .error .empty
  | c :: cs =>
    let value :=
      if c = '-' then unsignedLiteral? true cs
      else if c = '+' then unsignedLiteral? false cs
      else unsignedLiteral? false (c :: cs)
    match value with
    | some x => .ok x
    | none => .error .malformed

end FuzzyControl.Decimal
