/-
# From nondeterministic to deterministic automata

The subset construction: the sets of states that can be reached are explored, then numbered.  The start is
number 0.  The result keeps which set stands behind each number, as a correspondence, and what was reported on
the way.
-/
import Automata.Dfa
import Automata.Subset.Exploration
import Automata.Subset.Numbering

namespace Automata

/-- A deterministic automaton with what is known about its making. -/
structure Determinization where
  dfa : Dfa
  /-- The set of states behind each of its states. -/
  composites : Bijection StateSet Nat
  log : Array Event
  deriving DecidableEq

namespace Nfa

/-- The deterministic automaton of a nondeterministic one. -/
def determinize (nfa : Nfa) : Except Subset.Fault Determinization := do
  let (start, e) ← Subset.exploreAll nfa
  let rows ← Subset.numberRows e.resolved 0 e.resolved.entries
  let dfa ← Subset.ofParts (← Subset.number e.resolved start)
    (Subset.accepting nfa.exit e.resolved.keys) (.ofList rows)
  let (_, composites) ←
    (Bijection.empty.insertAll e.resolved.keys.zipIdx).mapError Subset.Fault.clash
  let summary := .finished nfa.size dfa.size dfa.accept.size e.interned.size
  return ⟨dfa, composites, e.log.push summary⟩

end Nfa

namespace Determinization

/-- The set of states behind a state of the automaton. -/
def composite? (d : Determinization) (id : Nat) : Option StateSet := d.composites.preimage id

/-- The state that stands for a set of states. -/
def stateOf? (d : Determinization) (set : StateSet) : Option Nat := d.composites.image set

end Determinization

end Automata
