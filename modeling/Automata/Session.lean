/-
# Sessions

Several automata built with one supply of states.  What was built is kept in numbered slots; a construction
that fails fills no slot but may have used up names.
-/
import Automata.Determinization
import Automata.Thompson

namespace Automata

/-- A shared supply and the automata built so far. -/
structure Session where
  supply : StateSupply
  nfas : Array Nfa
  dfas : Array Determinization

namespace Session

/-- A session in which nothing was built. -/
def start (supply : StateSupply) : Session := ⟨supply, #[], #[]⟩

/-- Takes a name from the shared supply. -/
def fresh (s : Session) : Except NameSupply.Exhausted StateName × Session :=
  match s.supply.fresh with
  | .ok (name, supply) => (.ok name, { s with supply })
  | .error e => (.error e, s)

/-- Builds an automaton with the shared supply. -/
def build (s : Session) (r : Regex) : Except Thompson.Fault Nfa × Session :=
  match r.toNfa s.supply with
  | (.ok nfa, supply) => (.ok nfa, { s with supply, nfas := s.nfas.push nfa })
  | (.error e, supply) => (.error e, { s with supply })

/-- Builds an automaton with a supply of its own. -/
def compile (s : Session) (r : Regex) : Except Thompson.Fault Nfa × Session :=
  match r.compile with
  | .ok nfa => (.ok nfa, { s with nfas := s.nfas.push nfa })
  | .error e => (.error e, s)

/-- Makes an automaton deterministic. -/
def determinize (s : Session) (nfa : Nfa) :
    Except Subset.Fault Determinization × Session :=
  match nfa.determinize with
  | .ok d => (.ok d, { s with dfas := s.dfas.push d })
  | .error e => (.error e, s)

end Session

end Automata
