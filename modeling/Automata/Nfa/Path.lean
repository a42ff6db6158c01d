/-
# Paths through a nondeterministic automaton

A path is a sequence of edges, each starting where the one before it ends; it spells the word of the symbols on
its edges, epsilon edges adding none.  An automaton accepts the words spelled by the paths from its start to
its exit.  No closure and no set of states enters into this.

Paths are taken through a list of edges, whatever it comes from, so that the same notion serves for an automaton
and for its parts.
-/
import Automata.Nfa

namespace Automata

/-- Some path through the edges leads from the first state to the second and spells the word. -/
inductive Path (edges : List Edge) : StateName → List String → StateName → Prop where
  | nil (s : StateName) : Path edges s [] s
  | epsilon {s t u : StateName} {w : List String} :
      ⟨s, none, t⟩ ∈ edges → Path edges t w u → Path edges s w u
  | symbol {s t u : StateName} {a : String} {w : List String} :
      ⟨s, some a, t⟩ ∈ edges → Path edges t w u → Path edges s (a :: w) u

namespace Nfa

/-- Some path through the automaton leads from the first state to the second and spells the word. -/
abbrev Path (nfa : Nfa) : StateName → List String → StateName → Prop := Automata.Path nfa.edges

/-- The automaton accepts the word. -/
def Accepts (nfa : Nfa) (w : List String) : Prop := nfa.Path nfa.start w nfa.exit

end Nfa

theorem Path.append {edges : List Edge} {s t u : StateName} {v w : List String}
    (hv : Path edges s v t) (hw : Path edges t w u) : Path edges s (v ++ w) u := by
  induction hv with
  | nil _ => exact hw
  | epsilon he _ ih => exact .epsilon he (ih hw)
  | symbol he _ ih => exact .symbol he (ih hw)

end Automata
