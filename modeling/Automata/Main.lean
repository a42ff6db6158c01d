/-
# The program

Prints the automaton of a sample expression.
-/
import Automata.CommandLine.Report

open Automata in
/-- Runs the program on the arguments of the command line. -/
def main (arguments : List String) : IO UInt32 := do
  let outside ← IO.getEnv CommandLine.firstStateVariable
  let outcome := CommandLine.outcome arguments outside
  if let some complaint := outcome.complaint then
    IO.eprintln complaint
  IO.print outcome.output
  return outcome.code.toUInt32
