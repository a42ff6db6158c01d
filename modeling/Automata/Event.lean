/-
# Events

What the constructions report while they run: that a nondeterministic automaton is finished, that a set of its
states has been resolved into edges, that the deterministic automaton is finished.  An event has a level and
named fields with texts.
-/
import Automata.Nfa.EpsilonClosure
import Automata.Text.Quoted

namespace Automata

/-- The edges out of a set of states, by ascending symbol, each to the set it leads to. -/
abbrev CompositeRow := List (String × StateSet)

/-- The text of the edges out of a set of states. -/
def CompositeRow.text (row : CompositeRow) : String :=
  Text.braced (row.map fun (symbol, set) => Text.quote symbol ++ ": " ++ StateSet.text set)

/-- Something worth reporting. -/
inductive Event where
  /-- An automaton with this start, exit and number of states is finished. -/
  | built (start exit states : Nat)
  /-- These are all edges out of this set of states. -/
  | resolved (set : StateSet) (row : CompositeRow)
  /-- The deterministic automaton is finished: the sizes of the automaton it was made from and of itself,
  the number of its accepting states, and how many different sets of states were met. -/
  | finished (nfaStates dfaStates accept interned : Nat)
  deriving DecidableEq

/-- How much a reader has to ask for to be shown an event. -/
inductive Level where
  | debug
  | trace
  deriving DecidableEq

def Level.name : Level → String
  | .debug => "DEBUG"
  | .trace => "TRACE"

namespace Event

/-- The event of a finished nondeterministic automaton. -/
def ofNfa (nfa : Nfa) : Event := .built nfa.start nfa.exit nfa.size

/-- Single sets are reported only at the finer level. -/
def level : Event → Level
  | .built .. => .debug
  | .resolved .. => .trace
  | .finished .. => .debug

/-- The fields with their texts, in order. -/
def fields : Event → List (String × String)
  | .built start exit states =>
      [("message", "Built NFA"), ("start", toString start), ("exit", toString exit),
       ("states", toString states)]
  | .resolved set row =>
      [("message", "Resolved composite state"), ("set", StateSet.text set),
       ("edges", CompositeRow.text row)]
  | .finished nfaStates dfaStates accept interned =>
      [("message", "Subset construction finished"), ("nfa_states", toString nfaStates),
       ("dfa_states", toString dfaStates), ("accept", toString accept),
       ("interned", toString interned)]

end Event

end Automata
