/-
# Epsilon closures

The closure of a list of states is the least set that holds them and, with a state, the targets of its epsilon
transitions.  It is found by saturation.  A state that does not belong to the automaton cannot be expanded; the
first such state met is named in the error.  Hence there is one round for each state of the automaton at most,
and one more that finds the queue used up or meets a state from elsewhere.
-/
import Automata.Nfa
import Automata.StateSet
import Automata.Worklist

namespace Automata

/-- A state was named that does not belong to the automaton. -/
structure UnknownState where
  state : StateName
  deriving DecidableEq

/-- The text of the error. -/
def UnknownState.message (e : UnknownState) : String :=
  "State " ++ toString e.state ++ " does not belong to this NFA"

namespace Nfa

/-- The targets of the epsilon transitions of a state, in order. -/
def epsilonTargets (nfa : Nfa) (s : StateName) : Except UnknownState (List StateName) :=
  match nfa.transitions? s with
  | some ts => .ok ((ts.filter (·.isEpsilon)).map (·.target))
  | none => .error ⟨s⟩

/-- Saturates the empty set from the given queue; what is left in the queue shows whether the rounds were
enough. -/
def saturate (nfa : Nfa) (seeds : List StateName) :
    Except UnknownState (Worklist StateName compare) :=
  Worklist.run nfa.epsilonTargets (nfa.size + 1) ⟨∅, seeds⟩

/-- The least set that holds the seeds and is closed under epsilon transitions. -/
def epsilonClosure (nfa : Nfa) (seeds : List StateName) : Except UnknownState StateSet :=
  (nfa.saturate seeds).map (·.seen)

end Nfa

end Automata
