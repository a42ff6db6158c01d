/-
# Reports

What the program prints and how it ends: the version, or an automaton as a summary or as a drawing.  A wrong
command line and a supply without names left print nothing on standard output and differ in the exit code.
-/
import Automata.CommandLine.Options
import Automata.Determinization
import Automata.Dot.Machine
import Automata.Thompson

namespace Automata.CommandLine

/-- How a run of the program ends. -/
structure Outcome where
  /-- The exit code. -/
  code : Nat
  /-- The text on standard output. -/
  output : String
  /-- What is said on standard error. -/
  complaint : Option String
  deriving DecidableEq

/-- The environment variable that stands in for the option of the first state. -/
def firstStateVariable : String := "RE2DFA_FIRST_STATE"

/-- The line that tells the version. -/
def versionLine : String := "powerset 0.1.0\n"

def edgeLine (source : Nat) (edge : String) : String :=
  "  " ++ toString source ++ " " ++ edge ++ "\n"

def nfaSummary (nfa : Nfa) : String :=
  nfa.display ++ "\n"
    ++ String.join (nfa.edges.map fun e =>
        edgeLine e.source (Transition.mk e.label e.target).display)

def dfaSummary (dfa : Dfa) : String :=
  dfa.display ++ "\n" ++ String.join (dfa.edges.map fun e => edgeLine e.source e.display)

/-- What is printed of a nondeterministic automaton. -/
def nfaReport : Format → Nfa → String
  | .summary, nfa => nfaSummary nfa
  | .dot, nfa => (nfa.graph id).display ++ "\n"

/-- What is printed of a deterministic automaton. -/
def dfaReport : Format → Dfa → String
  | .summary, dfa => dfaSummary dfa
  | .dot, dfa => (dfa.graph id).display ++ "\n"

/-- The end of a run that broke off. -/
def brokenOff (complaint : String) : Outcome := ⟨101, "", some complaint⟩

def answer : Request → Outcome
  | .version => ⟨0, versionLine, none⟩
  | .print sample format nfaOnly supply =>
      match (sample.regex.toNfa supply).1 with
      | .error e => brokenOff e.message
      | .ok nfa =>
          if nfaOnly then ⟨0, nfaReport format nfa, none⟩
          else match nfa.determinize with
            | .error e => brokenOff e.message
            | .ok d => ⟨0, dfaReport format d.dfa, none⟩

/-- A run of the program with these arguments, `outside` being the value of the environment variable. -/
def outcome (arguments : List String) (outside : Option String) : Outcome :=
  match request arguments outside with
  | .ok r => answer r
  | .error e => ⟨2, "", some e.message⟩

end Automata.CommandLine
