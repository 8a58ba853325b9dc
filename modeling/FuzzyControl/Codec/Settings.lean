import FuzzyControl.Json.Reader
import FuzzyControl.Settings

/-! # Settings in documents

Settings are a record with the fields `strategy` and `overrides`, each of which may be absent, or a list
of these two that may end early. They are read from the front, so the first fault in the text is the one
reported: a name of no strategy, or anything else. Of two overrides for one output the later counts.
-/
namespace FuzzyControl

set_option autoImplicit false

open Json (Document Quoted ReadFault required)

namespace Strategy

def toDocument (s : Strategy) : Document := .ofString s.name

def ofDocument (d : Document) : Except ReadFault Strategy :=
  match d.text? with
  | none => .error .refused
  | some text =>
    match parse text with
    | .ok s => .ok s
    | .error _ => .error (.unknownStrategy (normalize text))

end Strategy

namespace Settings

def readOverrides (t : Table Strategy) :
    List (Quoted × Document) → Except ReadFault (Table Strategy)
  | [] => .ok t
  | f :: fs => do
    let output ← required f.1.text?
    let strategy ← Strategy.ofDocument f.2
    readOverrides (t.insert output strategy) fs

def overridesOfDocument : Document → Except ReadFault (Table Strategy)
  | .record fields complete => do
    let t ← readOverrides .empty fields
    if complete then pure t else .error .refused
  | _ => .error .refused

/-- Reads the fields of settings; a field that has been read may not come again. -/
def readFields (strategy : Option Strategy) (overrides : Option (Table Strategy)) :
    List (Quoted × Document) → Except ReadFault Settings
  | [] => .ok ⟨strategy.getD default, overrides.getD .empty⟩
  | f :: fs => do
    let key ← required f.1.text?
    if key = "strategy" then
      if strategy.isSome then .error .refused
      else readFields (some (← Strategy.ofDocument f.2)) overrides fs
    else if key = "overrides" then
      if overrides.isSome then .error .refused
      else readFields strategy (some (← overridesOfDocument f.2)) fs
    else readFields strategy overrides fs

def readItems : List Document → Except ReadFault Settings
  | [] => .ok initial
  | [s] => do pure ⟨← Strategy.ofDocument s, .empty⟩
  | s :: o :: rest => do
    let settings : Settings := ⟨← Strategy.ofDocument s, ← overridesOfDocument o⟩
    if rest.isEmpty then pure settings else .error .refused

def ofDocument : Document → Except ReadFault Settings
  | .record fields complete => do
    let s ← readFields none none fields
    if complete then pure s else .error .refused
  | .list items complete => do
    let s ← readItems items
    if complete then pure s else .error .refused
  | _ => .error .refused

def parse (text : String) : Except ReadFault Settings := Json.read ofDocument text

end Settings

/-- The report of settings that cannot be read; the texts of refusals are left open. -/
def Json.ReadFault.message? : ReadFault → Option String
  | .refused => none
  | .unknownStrategy name => some ("configuração inválida: " ++ (Fault.unknownStrategy name).message)

end FuzzyControl
