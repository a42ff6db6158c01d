/-
# Drawings of automata

The graph of an automaton, laid out from left to right.  A state `s` is the node `ns`, labelled by its number
and drawn with two borders if it accepts; an invisible node with an edge to the start marks where words begin.
A state may be mentioned as the target of an edge before its own turn comes: it then has its place already and
gets its attributes later.
-/
import Automata.Dfa
import Automata.Dot.Text
import Automata.Nfa

namespace Automata

namespace Dot

/-- A state as it is drawn, with the labels of its edges and the states they lead to. -/
structure MachineState where
  state : Nat
  edges : List (String × Nat)
  accepting : Bool
  deriving DecidableEq

def stateNode (s : Nat) : String := "n" ++ toString s

/-- The invisible node before the start. -/
def startNode : String := "_start"

def stateAttributes (s : MachineState) (a : NodeAttributes) : NodeAttributes :=
  let a := { a with label := some (toString s.state) }
  if s.accepting then { a with peripheries := some "2" } else a

/-- Adds a state and its edges. -/
def addState (g : Graph) (s : MachineState) : Graph :=
  s.edges.foldl
    (fun g (label, target) =>
      g.edge (stateNode s.state) (stateNode target) ⟨some label, none⟩)
    (g.node (stateNode s.state) (stateAttributes s))

/-- The graph of a machine with these states. -/
def machine (states : List MachineState) (start : Nat) : Graph :=
  let g : Graph := { Graph.empty with attributes := ⟨none, some "LR"⟩ }
  let g := states.foldl addState g
  let g := g.node startNode fun a =>
    { a with label := some "", shape := some "point", style := some "invis" }
  g.edge startNode (stateNode start) ∅

end Dot

/-- The drawing of the automaton, `format` giving the texts of its symbols. -/
def Nfa.graph (nfa : Nfa) (format : String → String) : Dot.Graph :=
  Dot.machine
    (nfa.relation.toList.map fun (s, ts) =>
      ⟨s, ts.map fun t => ((t.label.map format).getD epsilonLabel, t.target), s = nfa.exit⟩)
    nfa.start

/-- The drawing of the automaton, `format` giving the texts of its symbols. -/
def Dfa.graph (dfa : Dfa) (format : String → String) : Dot.Graph :=
  Dot.machine
    (dfa.relation.toList.map fun (s, row) =>
      ⟨s, row.toList.map fun (symbol, t) => (format symbol, t), dfa.isAccepting s⟩)
    dfa.start

end Automata
