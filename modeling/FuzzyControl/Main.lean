import FuzzyControl.CommandLine

/-! # The program

Reads the environment and prints the outcome of a run.
-/
open FuzzyControl

def main (args : List String) : IO UInt32 := do
  let strategy ← IO.getEnv CommandLine.strategyVariable
  let outcome := CommandLine.run args strategy
  outcome.stdout.forM IO.println
  outcome.stderr.forM IO.eprintln
  return outcome.exit.toUInt32
