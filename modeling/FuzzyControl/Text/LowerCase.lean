import FuzzyControl.Text.CaseIgnorable
import FuzzyControl.Text.CaseMapping
import FuzzyControl.Text.Cased

/-! # Lower case of texts

A text is put into lower case character by character, with two rules of Unicode that need more than
one character: the dotted capital I becomes two characters, and a capital sigma takes its final form
where it ends a word, that is after a letter and not before one.
-/
namespace FuzzyControl.Text

set_option autoImplicit false

/-- Whether the first character that is not case-ignorable is a letter with case. -/
def meetsLetter (cs : List Char) : Bool :=
  match cs.dropWhile isCaseIgnorable with
  | c :: _ => isCased c
  | [] => false

/-- The lower case of `c` where it stands, given what is before it, nearest first, and after it. -/
def lowerAt (before : List Char) (c : Char) (after : List Char) : List Char :=
  if c = 'Σ' then [if meetsLetter before && !meetsLetter after then 'ς' else 'σ']
  else if c = 'İ' then ['i', '\u0307']
  else [toLower c]

/-- The lower case of a text that stands after `before`, which is read backwards. -/
def lowerAfter : List Char → List Char → List Char
  | _, [] => []
  | before, c :: rest => lowerAt before c rest ++ lowerAfter (c :: before) rest

def lowerCase (s : String) : String :=
  String.ofList (lowerAfter [] s.toList)

@[simp] theorem lowerCase_empty : lowerCase "" = "" := by decide

end FuzzyControl.Text
