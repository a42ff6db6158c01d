/-
# Exploring the sets of states

A state of the deterministic automaton stands for a set of states of the nondeterministic one, those in which
it can be after the same word.  The exploration keeps a queue of sets, starting with the closure of the start.
A set that has been resolved already is dropped; for any other, the targets of its members are collected by
symbol, the closure of each collection is the set that symbol leads to, those of them not yet resolved join
the queue by ascending symbol, and the set is recorded as resolved.

The worklist of the closures is shared: what it still holds after a closure stays in the exploration, and no
closure is begun before it is empty.
-/
import Automata.Event
import Automata.Roster
import Automata.Subset.Fault

namespace Automata.Subset

/-- How far the exploration has come. -/
structure Exploration where
  /-- What the worklist of the closures holds. -/
  worklist : List StateName
  /-- The different sets that closures have given. -/
  interned : Std.ExtTreeSet StateSet
  /-- The sets recorded so far with their edges. -/
  resolved : Roster StateSet CompositeRow
  /-- The sets to be looked at. -/
  pending : List StateSet
  /-- What was reported, first to last. -/
  log : Array Event
  deriving DecidableEq

/-- The exploration before anything was done. -/
def Exploration.initial : Exploration := ⟨[], ∅, ∅, [], #[]⟩

/-! ## Closures -/

/-- The closure of the seeds. -/
def close (nfa : Nfa) (seeds : List StateName) (e : Exploration) :
    Except Fault (StateSet × Exploration) :=
  if e.worklist ≠ [] then .error .busyWorklist
  else match nfa.saturate seeds with
    | .error err => .error (.unknownState err)
    | .ok w => .ok (w.seen, { e with worklist := w.queue, interned := e.interned.insert w.seen })

/-- The closure of each collection of targets, from first to last. -/
def closeAll (nfa : Nfa) :
    List (String × StateSet) → Exploration → Except Fault (CompositeRow × Exploration)
  | [], e => .ok ([], e)
  | (symbol, targets) :: rest, e => do
      let (set, e) ← close nfa targets.toList e
      let (row, e) ← closeAll nfa rest e
      return ((symbol, set) :: row, e)

/-! ## Resolving a set -/

/-- The targets collected so far, by symbol. -/
abbrev Moves := Std.ExtTreeMap String StateSet

/-- Collects one transition; epsilon transitions lead nowhere new. -/
def addTransition (moves : Moves) (t : Transition) : Moves :=
  match t.label with
  | none => moves
  | some symbol => moves.alter symbol fun targets => some ((targets.getD ∅).insert t.target)

/-- Collects the transitions of the given states. -/
def collect (nfa : Nfa) : List StateName → Moves → Except Fault Moves
  | [], moves => .ok moves
  | s :: rest, moves =>
      match nfa.transitions? s with
      | none => .error (.foreignMember s)
      | some ts => collect nfa rest (ts.foldl addTransition moves)

/-- The targets of the members of a set, by symbol. -/
def moves (nfa : Nfa) (set : StateSet) : Except Fault Moves := collect nfa set.toList ∅

/-- Finds the edges out of a set and records them; the sets they lead to join the queue unless they were
resolved before. -/
def resolve (nfa : Nfa) (set : StateSet) (e : Exploration) : Except Fault Exploration := do
  let targets ← moves nfa set
  let (row, e) ← closeAll nfa targets.toList e
  let next := (row.map Prod.snd).filter fun t => !e.resolved.contains t
  return { e with
    pending := e.pending ++ next
    resolved := e.resolved.insert set row
    log := e.log.push (.resolved set row) }

/-- Takes one set from the queue and resolves it, unless that was done before. -/
def step (nfa : Nfa) (e : Exploration) : Except Fault Exploration :=
  match e.pending with
  | [] => .ok e
  | set :: rest =>
      let e := { e with pending := rest }
      if e.resolved.contains set then .ok e else resolve nfa set e

/-- Takes sets from the queue until it is empty, `pops` of them at most. -/
def explore (nfa : Nfa) : Nat → Exploration → Except Fault Exploration
  | 0, e => .ok e
  | pops + 1, e =>
      match e.pending with
      | [] => .ok e
      | _ :: _ => do explore nfa pops (← step nfa e)

/-- As many sets as can ever be taken from the queue: the first one, and one for each of the edges that the
sets of states can have. -/
def maxPops (nfa : Nfa) : Nat := 1 + Nat.pow 2 nfa.size * nfa.edges.length

/-- The exploration of all sets that can be reached, with the set it starts from. -/
def exploreAll (nfa : Nfa) : Except Fault (StateSet × Exploration) := do
  let (start, e) ← close nfa [nfa.start] .initial
  let e ← explore nfa (maxPops nfa) { e with pending := [start] }
  return (start, e)

end Automata.Subset
