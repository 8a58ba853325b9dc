import FuzzyControl.Decimal.Literal
import FuzzyControl.Json.Document
import FuzzyControl.WaterHeater

/-! # The command line

The program runs the water heater for temperatures given as arguments, or for a sweep from 0 to 100 if
there are none, and prints one record a line. The strategy is named by an environment variable; it is
looked at before the arguments, and the first of these that is no number ends the program, with nothing
printed but the report of the failure.

A log of the run, which goes to the same stream as that report if it is kept, is not part of the
outcome: `stderr` has the lines of a run that keeps none.
-/
namespace FuzzyControl.CommandLine

set_option autoImplicit false

open Json (Document)

def strategyVariable : String := "FUZZY_DEFUZZ"

/-- What a run leaves: its exit code and the lines on both streams, those of a log left out. -/
structure Outcome where
  exit : UInt8
  stdout : List String
  stderr : List String
  deriving DecidableEq, Repr

/-- Why the program gives up: what it was doing, and the cause. -/
structure Failure where
  context : String
  cause : String
  deriving DecidableEq, Repr

/-- A fault gets the context in which it came up. -/
def inContext {ε α : Type} (context : String) (message : ε → String) (x : Except ε α) :
    Except Failure α :=
  x.mapError fun e => ⟨context, message e⟩

/-- From 0 to 100 degrees, ten by ten. -/
def sweep : List Float := (List.range 11).map fun i => i.toFloat * 10.0

def temperature (arg : String) : Except Failure Float :=
  inContext ("Valor de entrada inválido: '" ++ arg ++ "'") Decimal.LiteralFlaw.message
    (Decimal.literal arg)

def temperatures (args : List String) : Except Failure (List Float) :=
  if args.isEmpty then .ok sweep else args.mapM temperature

def settings (strategy : Option String) : Except Failure Settings :=
  inContext ("Falha ao ler " ++ strategyVariable) Fault.message (Settings.ofEnvironment strategy)

def heater (s : Settings) : Except Failure Controller :=
  inContext "Falha ao montar o modelo" Fault.message (WaterHeater.build s)

/-- A field that is left out if there is nothing in it. -/
def optionalField (name : String) (absent : Bool) (d : Document) : List (String × Document) :=
  if absent then [] else [(name, d)]

/-- The numbers of an evaluation by output, and the messages of its faults. -/
def split (result : Except Fault (List (String × Except Fault Float))) :
    List (String × Float) × List String :=
  match result with
  | .error fault => ([], [fault.message])
  | .ok outputs =>
    (outputs.filterMap fun o => o.2.toOption.map fun y => (o.1, y),
      outputs.filterMap fun o => match o.2 with | .ok _ => none | .error f => some f.message)

/-- The record of one evaluation: the input, the outputs that have a number, and the faults. -/
def report (input : Float) (result : Except Fault (List (String × Except Fault Float))) :
    Document :=
  let (numbers, faults) := split result
  .ofFields (("input", .ofFloat input) ::
    optionalField "output" numbers.isEmpty
      (.ofFields (numbers.map fun o => (o.1, .ofFloat o.2))) ++
    optionalField "errors" faults.isEmpty (.ofList (faults.map Document.ofString)))

def line (c : Controller) (x : Float) : String :=
  (report x (c.defuzzify (WaterHeater.readings x))).render

def lines (text : String) : List String :=
  (pieces text.toList).map String.ofList
where
  pieces : List Char → List (List Char)
    | [] => [[]]
    | '\n' :: cs => [] :: pieces cs
    | c :: cs =>
      match pieces cs with
      | [] => [[c]]
      | p :: ps => (c :: p) :: ps

def Failure.report (f : Failure) : List String :=
  lines ("Error: " ++ f.context) ++ ["", "Caused by:"] ++ (lines f.cause).map ("    " ++ ·)

def output (args : List String) (strategy : Option String) : Except Failure (List String) := do
  let s ← settings strategy
  let c ← heater s
  let xs ← temperatures args
  pure (xs.map (line c))

def run (args : List String) (strategy : Option String) : Outcome :=
  match output args strategy with
  | .ok printed => ⟨0, printed, []⟩
  | .error f => ⟨1, [], f.report⟩

end FuzzyControl.CommandLine
