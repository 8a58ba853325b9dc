import FuzzyControl.Decimal.Numeral
import FuzzyControl.Json.Quoted

/-! # Tokens of documents

A document is a sequence of marks, words, numerals and quoted texts, with blanks between them. What is
none of these becomes a broken token, so that everything before it can still be read.
-/
namespace FuzzyControl.Json

set_option autoImplicit false

open Decimal (Numeral)

inductive Token where
  | openList
  | closeList
  | openRecord
  | closeRecord
  | comma
  | colon
  | null
  | bool (b : Bool)
  | number (n : Numeral)
  | text (q : Quoted)
  | broken
  deriving DecidableEq, Repr

namespace Token

def mark? : Char → Option Token
  | '[' => some openList
  | ']' => some closeList
  | '\x7b' => some openRecord
  | '\x7d' => some closeRecord
  | ',' => some comma
  | ':' => some colon
  | _ => none

def isSpace (c : Char) : Bool := c == ' ' || c == '\n' || c == '\t' || c == '\r'

/-- The numeral of an unsigned word: no zero stands before other digits, and there are digits on both
sides of a point. -/
def numeral? (negative : Bool) (cs : List Char) : Option Numeral :=
  match Decimal.spanDigits cs with
  | (whole, afterWhole) =>
    match Decimal.spanFraction afterWhole with
    | (fraction, rest) =>
      if whole.isEmpty ∨ (whole.head? = some 0 ∧ whole.length ≠ 1) ∨ fraction = some [] then none
      else (Decimal.exponent? rest).map fun e => ⟨negative, whole, fraction.getD [], e⟩

def ofWord (cs : List Char) : Token :=
  if cs = ['n', 'u', 'l', 'l'] then null
  else if cs = ['t', 'r', 'u', 'e'] then bool true
  else if cs = ['f', 'a', 'l', 's', 'e'] then bool false
  else
    let numeral :=
      match cs with
      | '-' :: ds => numeral? true ds
      | ds => numeral? false ds
    match numeral with
    | some n => number n
    | none => broken

def unescape? (c : Char) : Option Char :=
  if c = '/' then some c
  else (Quoted.escapes.find? fun e => e.2 == c).map Prod.fst

def hexValue? (c : Char) : Option Nat :=
  if '0' ≤ c ∧ c ≤ '9' then some (c.toNat - 48)
  else if 'a' ≤ c ∧ c ≤ 'f' then some (c.toNat - 87)
  else if 'A' ≤ c ∧ c ≤ 'F' then some (c.toNat - 55)
  else none

/-- Where in a document a character stands. What has been read of a word or a quoted text is kept
backwards. -/
inductive Place where
  | between
  | word (read : List Char)
  | quoted (read : List Piece)
  | escape (read : List Piece)
  | hex (read : List Piece) (value left : Nat)

def scan : Place → List Char → List Token
  | .between, [] => []
  | .word read, [] => [ofWord read.reverse]
  | _, [] => [broken]
  | .between, c :: cs =>
    if isSpace c then scan .between cs
    else if c = '"' then scan (.quoted []) cs
    else
      match mark? c with
      | some m => m :: scan .between cs
      | none => scan (.word [c]) cs
  | .word read, c :: cs =>
    if isSpace c then ofWord read.reverse :: scan .between cs
    else if c = '"' then ofWord read.reverse :: scan (.quoted []) cs
    else
      match mark? c with
      | some m => ofWord read.reverse :: m :: scan .between cs
      | none => scan (.word (c :: read)) cs
  | .quoted read, c :: cs =>
    if c = '"' then text read.reverse :: scan .between cs
    else if c = '\\' then scan (.escape read) cs
    else if c.toNat < 32 then [broken]
    else scan (.quoted (.char c :: read)) cs
  | .escape read, c :: cs =>
    if c = 'u' then scan (.hex read 0 3) cs
    else
      match unescape? c with
      | some d => scan (.quoted (.char d :: read)) cs
      | none => [broken]
  | .hex read value left, c :: cs =>
    match hexValue? c with
    | none => [broken]
    | some d =>
      match left with
      | 0 => scan (.quoted (.unit (16 * value + d) :: read)) cs
      | left + 1 => scan (.hex read (16 * value + d) left) cs

def ofText (s : String) : List Token := scan .between s.toList

end Token

end FuzzyControl.Json
