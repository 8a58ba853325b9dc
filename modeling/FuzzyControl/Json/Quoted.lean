import FuzzyControl.Decimal.Digits

/-! # Quoted texts

Between the quotes of a document stands a sequence of pieces: characters, and sixteen-bit units given
by their number in hexadecimal. Two units together may make one character, and a unit that is left
without its partner makes the whole text unreadable; whether it does matters only to who reads it.
`Quoted.text?` reads the pieces, `Quoted.ofText` writes a text, and `Quoted.render` gives its
characters as they stand in a document.
-/
namespace FuzzyControl.Json

set_option autoImplicit false

inductive Piece where
  | char (c : Char)
  | unit (n : Nat)
  deriving DecidableEq, Repr

abbrev Quoted := List Piece

/-- The unit announces a character outside the basic plane. -/
def isHighUnit (n : Nat) : Bool := 0xD800 ≤ n && n < 0xDC00

def isLowUnit (n : Nat) : Bool := 0xDC00 ≤ n && n < 0xE000

def pairUnits (high low : Nat) : Char :=
  Char.ofNat (0x10000 + (high - 0xD800) * 0x400 + (low - 0xDC00))

namespace Quoted

/-- The characters that pieces stand for, unless a unit lacks its partner. -/
def chars? : Quoted → Option (List Char)
  | [] => some []
  | .char c :: ps => (chars? ps).map (c :: ·)
  | .unit h :: .unit l :: ps =>
    if isHighUnit h then
      if isLowUnit l then (chars? ps).map (pairUnits h l :: ·) else none
    else if isLowUnit h then none
    else (chars? (.unit l :: ps)).map (Char.ofNat h :: ·)
  | .unit h :: ps =>
    if isHighUnit h || isLowUnit h then none else (chars? ps).map (Char.ofNat h :: ·)

def text? (q : Quoted) : Option String := q.chars?.map String.ofList

def ofText (s : String) : Quoted := s.toList.map .char

def hexDigit (n : Nat) : Char := if n < 10 then Char.ofNat (48 + n) else Char.ofNat (87 + n)

def hexDigits (n : Nat) : List Char :=
  [hexDigit (n / 4096 % 16), hexDigit (n / 256 % 16), hexDigit (n / 16 % 16), hexDigit (n % 16)]

/-- The letter that stands after a backslash for a character, for the characters that have one. -/
def escapes : List (Char × Char) :=
  [('"', '"'), ('\\', '\\'), ('\n', 'n'), ('\r', 'r'), ('\t', 't'), ('\x08', 'b'), ('\x0c', 'f')]

/-- A character as it stands between quotes: behind a backslash if it has a letter for that, by its
number if it is another control character, and else as it is. -/
def renderChar (c : Char) : List Char :=
  match escapes.find? fun e => e.1 == c with
  | some e => ['\\', e.2]
  | none => if c.toNat < 32 then '\\' :: 'u' :: hexDigits c.toNat else [c]

def renderPiece : Piece → List Char
  | .char c => renderChar c
  | .unit n => '\\' :: 'u' :: hexDigits n

def render (q : Quoted) : List Char := '"' :: q.flatMap renderPiece ++ ['"']

theorem chars?_map_char (cs : List Char) : chars? (cs.map .char) = some cs := by
  induction cs with
  | nil => rfl
  | cons c cs ih => simp [chars?, ih]

@[simp] theorem text?_ofText (s : String) : (ofText s).text? = some s := by
  simp [text?, ofText, chars?_map_char]

end Quoted

end FuzzyControl.Json
