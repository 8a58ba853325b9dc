import FuzzyControl.Strategy
import FuzzyControl.Table

/-! # Settings

The settings of a controller: a strategy for all outputs, and strategies of single outputs that go
before it. The strategy for all outputs may also be given by the environment.
-/
namespace FuzzyControl

set_option autoImplicit false

structure Settings where
  strategy : Strategy
  overrides : Table Strategy

namespace Settings

def initial : Settings := ⟨.centroid, .empty⟩

instance : Inhabited Settings := ⟨initial⟩

def strategyFor (s : Settings) (output : String) : Strategy :=
  (s.overrides.find? output).getD s.strategy

def setStrategy (s : Settings) (strategy : Strategy) : Settings := { s with strategy }

def setOutputStrategy (s : Settings) (output : String) (strategy : Strategy) : Settings :=
  { s with overrides := s.overrides.insert output strategy }

/-- The settings that go with a strategy named in the environment, if there is one. -/
def ofEnvironment : Option String → Except Fault Settings
  | none => .ok initial
  | some text => (Strategy.parse text).map initial.setStrategy

/-- As `ofEnvironment`, from bytes: those that are no text count as absent. -/
def ofEnvironmentBytes (bytes : Option ByteArray) : Except Fault Settings :=
  ofEnvironment (bytes.bind String.fromUTF8?)

@[simp] theorem strategyFor_initial (output : String) : initial.strategyFor output = .centroid := rfl

@[simp] theorem strategyFor_setOutputStrategy_self (s : Settings) (output : String)
    (strategy : Strategy) :
    (s.setOutputStrategy output strategy).strategyFor output = strategy := by
  simp [strategyFor, setOutputStrategy]

theorem strategyFor_setOutputStrategy_of_ne (s : Settings) {output other : String}
    (h : other ≠ output) (strategy : Strategy) :
    (s.setOutputStrategy output strategy).strategyFor other = s.strategyFor other := by
  simp [strategyFor, setOutputStrategy, Table.find?_insert_of_ne _ h]

theorem strategyFor_setStrategy (s : Settings) (strategy : Strategy) (output : String) :
    (s.setStrategy strategy).strategyFor output = (s.overrides.find? output).getD strategy := rfl

end Settings

end FuzzyControl
