import FuzzyControl.Json.Document

/-! # Assembling documents

A document is assembled from its tokens by a stack of frames, one for each list or record that is
open. When the tokens end or do not fit, all open frames are cut short, so that what was read before
that place is still there. `parse?` gives the document of a text and tells whether anything follows it.
-/
namespace FuzzyControl.Json

set_option autoImplicit false

/-- A list or record that is open, with its parts kept backwards. -/
inductive Frame where
  | list (items : List Document)
  | record (fields : List (Quoted × Document))
  /-- A record whose next field has its key but not its value. -/
  | field (fields : List (Quoted × Document)) (key : Quoted)

/-- What the next token has to be. The flag tells that the innermost list or record has just been
opened, so that it may be closed at once. -/
inductive Expected where
  | value (fresh : Bool)
  | key (fresh : Bool)
  | colon
  | separator

namespace Frame

def cut : Frame → Document
  | list items => .list items.reverse false
  | record fields => .record fields.reverse false
  | field fields _ => .record fields.reverse false

/-- A frame with one part more, if a value can stand there. -/
def add (d : Document) : Frame → Frame
  | list items => list (d :: items)
  | field fields key => record ((key, d) :: fields)
  | record fields => record fields

def afterComma : Frame → Expected
  | list _ => .value false
  | _ => .key false

def close? : Token → Frame → Option Document
  | .closeList, list items => some (.list items.reverse true)
  | .closeRecord, record fields => some (.record fields.reverse true)
  | _, _ => none

end Frame

def scalar? : Token → Option Document
  | .null => some .null
  | .bool b => some (.bool b)
  | .number n => some (.number n)
  | .text q => some (.text q)
  | _ => none

/-- The frame that a token opens, and what is expected in it. -/
def opened? : Token → Option (Frame × Expected)
  | .openList => some (.list [], .value true)
  | .openRecord => some (.record [], .key true)
  | _ => none

/-- The outermost document when `d` stands at the end of the innermost frame and all frames are cut. -/
def cutOff (d : Document) : List Frame → Document
  | [] => d
  | f :: fs => cutOff (f.add d).cut fs

/-- The outermost document when all frames are cut; none if no frame is open. -/
def abandon : List Frame → Option Document
  | [] => none
  | f :: fs => some (cutOff f.cut fs)

inductive Step where
  | more (expected : Expected) (frames : List Frame)
  | ended (d : Document)
  | broken

def Step.value (d : Document) : List Frame → Step
  | [] => ended d
  | f :: fs => more .separator (f.add d :: fs)

def Step.close (t : Token) : List Frame → Step
  | [] => broken
  | f :: fs =>
    match f.close? t with
    | some d => value d fs
    | none => broken

def Step.ofValue (fresh : Bool) (frames : List Frame) (t : Token) : Step :=
  match opened? t with
  | some (f, e) => more e (f :: frames)
  | none =>
    match scalar? t with
    | some d => value d frames
    | none => if fresh then close t frames else broken

def Step.ofKey (fresh : Bool) (frames : List Frame) (t : Token) : Step :=
  match t, frames with
  | .text q, .record fields :: fs => more .colon (.field fields q :: fs)
  | _, _ => if fresh then close t frames else broken

def Step.ofSeparator (frames : List Frame) (t : Token) : Step :=
  match t, frames with
  | .comma, f :: fs => more f.afterComma (f :: fs)
  | _, _ => close t frames

def step (expected : Expected) (frames : List Frame) (t : Token) : Step :=
  match expected with
  | .value fresh => Step.ofValue fresh frames t
  | .key fresh => Step.ofKey fresh frames t
  | .colon => if t = .colon then .more (.value false) frames else .broken
  | .separator => Step.ofSeparator frames t

/-- The document of a sequence of tokens, and whether nothing of it is left over. -/
def assemble (expected : Expected) (frames : List Frame) : List Token → Option (Document × Bool)
  | [] => (abandon frames).map fun d => (d, true)
  | t :: ts =>
    match step expected frames t with
    | .more e fs => assemble e fs ts
    | .ended d => some (d, ts.isEmpty)
    | .broken => (abandon frames).map fun d => (d, false)

@[simp] theorem assemble_nil (e : Expected) (fs : List Frame) :
    assemble e fs [] = (abandon fs).map fun d => (d, true) := rfl

theorem assemble_of_more {e e' : Expected} {fs fs' : List Frame} {t : Token}
    (h : step e fs t = .more e' fs') (ts : List Token) :
    assemble e fs (t :: ts) = assemble e' fs' ts := by
  simp [assemble, h]

theorem assemble_of_ended {e : Expected} {fs : List Frame} {t : Token} {d : Document}
    (h : step e fs t = .ended d) (ts : List Token) :
    assemble e fs (t :: ts) = some (d, ts.isEmpty) := by
  simp [assemble, h]

/-- The document that a text begins with, and whether it ends there. -/
def parse? (s : String) : Option (Document × Bool) :=
  assemble (.value false) [] (Token.ofText s)

end FuzzyControl.Json
