import FuzzyControl.Decimal.Notation
import FuzzyControl.Json.Token

/-! # Documents

A document is a value made of numerals, texts, lists and records. A list or record may be cut short:
then its text ended or broke before its closing mark. The fields of a record are kept in order, with
repetitions. `Document.render` writes a document without blanks; a number that is not finite is
written as the null value.
-/
namespace FuzzyControl.Json

set_option autoImplicit false

open Decimal (Numeral)

inductive Document where
  | null
  | bool (b : Bool)
  | number (n : Numeral)
  | text (q : Quoted)
  | list (items : List Document) (complete : Bool)
  | record (fields : List (Quoted × Document)) (complete : Bool)

namespace Document

instance : Inhabited Document := ⟨null⟩

def ofFloat (x : Float) : Document :=
  match Decimal.numeral? x with
  | some n => number n
  | none => null

def ofString (s : String) : Document := text (Quoted.ofText s)

def ofList (items : List Document) : Document := list items true

def ofFields (fields : List (String × Document)) : Document :=
  record (fields.map fun f => (Quoted.ofText f.1, f.2)) true

def separate (mark : Char) : List (List Char) → List Char
  | [] => []
  | [x] => x
  | x :: y :: xs => x ++ mark :: separate mark (y :: xs)

mutual

def chars : Document → List Char
  | null => ['n', 'u', 'l', 'l']
  | bool true => ['t', 'r', 'u', 'e']
  | bool false => ['f', 'a', 'l', 's', 'e']
  | number n => n.chars
  | text q => q.render
  | list items _ => '[' :: separate ',' (itemChars items) ++ [']']
  | record fields _ => '\x7b' :: separate ',' (fieldsChars fields) ++ ['\x7d']

def itemChars : List Document → List (List Char)
  | [] => []
  | d :: ds => chars d :: itemChars ds

def fieldsChars : List (Quoted × Document) → List (List Char)
  | [] => []
  | f :: fs => fieldChars f :: fieldsChars fs

def fieldChars : Quoted × Document → List Char
  | (key, d) => key.render ++ ':' :: chars d

end

def render (d : Document) : String := String.ofList d.chars

mutual

/-- Whether every numeral has a value and every text can be read, and at most `room` lists and records
stand inside one another. -/
def sound (room : Nat) : Document → Bool
  | null => true
  | bool _ => true
  | number n => n.approximate?.isSome
  | text q => q.text?.isSome
  | list items complete =>
    match room with
    | 0 => false
    | room + 1 => complete && allSound room items
  | record fields complete =>
    match room with
    | 0 => false
    | room + 1 => complete && fieldsSound room fields

def allSound (room : Nat) : List Document → Bool
  | [] => true
  | d :: ds => sound room d && allSound room ds

def fieldsSound (room : Nat) : List (Quoted × Document) → Bool
  | [] => true
  | f :: fs => fieldSound room f && fieldsSound room fs

def fieldSound (room : Nat) : Quoted × Document → Bool
  | (key, d) => key.text?.isSome && sound room d

end

def number? : Document → Option Float
  | number n => n.approximate?
  | _ => none

def text? : Document → Option String
  | text q => q.text?
  | _ => none

def items? : Document → Option (List Document)
  | list items true => some items
  | _ => none

def fieldsNamed (name : String) (fields : List (Quoted × Document)) : List Document :=
  (fields.filter fun f => f.1.text? == some name).map Prod.snd

/-- The documents of the named fields, each of which stands there once. -/
def uniqueFields? (names : List String) (fields : List (Quoted × Document)) :
    Option (List Document) :=
  names.mapM fun name =>
    match fieldsNamed name fields with
    | [d] => some d
    | _ => none

/-- The parts of a document that has the named parts: either a record with a field for each of them,
in any order and with others among them, or a list of just the parts. -/
def parts? (names : List String) : Document → Option (List Document)
  | record fields true =>
    if fields.all fun f => f.1.text?.isSome then uniqueFields? names fields else none
  | list items true => if items.length = names.length then some items else none
  | _ => none

@[simp] theorem items?_ofList (items : List Document) : (ofList items).items? = some items := rfl

end Document

end FuzzyControl.Json
