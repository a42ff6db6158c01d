/-
# From expressions to nondeterministic automata

Thompson's construction: the automaton of an expression is built from the fragments of its parts, with states
from a supply that is handed back afterwards.  The only thing that can go wrong is that the supply runs out;
the other faults stand for what the construction relies on at each step.
-/
import Automata.Thompson.Task

namespace Automata

namespace Thompson

/-- Builds an expression and makes the one fragment left an automaton. -/
def construct (r : Regex) : Construction Nfa := do
  match ← run [.build r] [] with
  | [] => throw .nothingBuilt
  | [part] => ofParts part.start part.exit (← get).relation
  | _ :: _ :: _ => throw .fragmentsLeft

end Thompson

namespace Regex

/-- The automaton of an expression with states from `supply`, and the supply as it is afterwards. -/
def toNfa (r : Regex) (supply : StateSupply) : Except Thompson.Fault Nfa × StateSupply :=
  match (Thompson.construct r).run ⟨supply, ∅⟩ with
  | .ok nfa draft => (.ok nfa, draft.supply)
  | .error fault draft => (.error fault, draft.supply)

/-- The automaton of an expression with states from zero on. -/
def compile (r : Regex) : Except Thompson.Fault Nfa := (r.toNfa .initial).1

end Regex

end Automata
