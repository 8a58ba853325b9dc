import FuzzyControl.CommandLine
import FuzzyControl.Proofs.Documents.Values
import FuzzyControl.Proofs.Heating

/-! # What a run prints

A run fails before anything is printed, because the strategy is not known or else because of the first
argument that is no number, or it prints one line for each temperature. A line is a record made from its
temperature alone: no strategy changes it. From 0 to 100 degrees it has a number for the power, and
beyond the one fault that no rule applies.
-/
namespace FuzzyControl

set_option autoImplicit false

namespace Json

end Json

namespace CommandLine

open Json (Document)

/-- Lines as they are printed. -/
def printed (ls : List String) : List Char := ls.flatMap fun l => l.toList ++ ['\n']

/-- The line that is printed for a temperature. -/
def record (x : Float) : String := line (WaterHeater.controller .initial) x

end CommandLine

end FuzzyControl
