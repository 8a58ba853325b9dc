import FuzzyControl.Controller

/-! # A water heater

A small controller: while the water is cold or warm the heater runs on high power, while it is hot on
low power. `build` makes it from its parts, one declaration after the other, and `controller` is what
this gives.
-/
namespace FuzzyControl.WaterHeater

set_option autoImplicit false

def water : Variable :=
  { name := "Water"
    terms :=
      [⟨"Cold", .trapezoid 0.0 0.0 20.0 40.0⟩,
       ⟨"Warm", .triangle 30.0 50.0 70.0⟩,
       ⟨"Hot", .trapezoid 50.0 80.0 100.0 100.0⟩] }

def power : Variable :=
  { name := "Power"
    terms := [⟨"Low", .triangle 0.0 25.0 50.0⟩, ⟨"High", .triangle 25.0 50.0 75.0⟩] }

def rules : List Rule :=
  [Antecedent.implies
      (.or (.about ⟨"Water", "Cold"⟩) (.about ⟨"Water", "Warm"⟩)) ⟨"Power", "High"⟩,
   Antecedent.implies (.about ⟨"Water", "Hot"⟩) ⟨"Power", "Low"⟩]

def controller (settings : Settings) : Controller :=
  { vars := .ofList [(water.name, water), (power.name, power)]
    rules
    settings }

def readings (temperature : Float) : Readings := [("water", temperature)]

/-- Declares the terms, states the rules by the references to them, and adds the variables and then the
rules to a new controller. -/
def build (settings : Settings) : Except Fault Controller := do
  let (water, cold) ← (Variable.named "Water").declare "Cold" (.trapezoid 0.0 0.0 20.0 40.0)
  let (water, warm) ← water.declare "Warm" (.triangle 30.0 50.0 70.0)
  let (water, hot) ← water.declare "Hot" (.trapezoid 50.0 80.0 100.0 100.0)
  let (power, low) ← (Variable.named "Power").declare "Low" (.triangle 0.0 25.0 50.0)
  let (power, high) ← power.declare "High" (.triangle 25.0 50.0 75.0)
  let rules :=
    [Antecedent.implies (.or (water.is cold) (water.is warm)) high,
     Antecedent.implies (water.is hot) low]
  match (Controller.new settings).addVariables [water, power] with
  | (_, some fault) => .error fault
  | (c, none) => c.addRules rules

end FuzzyControl.WaterHeater
