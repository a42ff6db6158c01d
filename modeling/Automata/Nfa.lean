/-
# Nondeterministic automata

A finite automaton with one start and one exit, which is its only accepting state.  Each state has a list of
transitions in a fixed order, in which one may come several times; a transition without a label is an epsilon
transition.  States are numbers and need not be consecutive.

`Nfa.WellFormed` is the promise that every state mentioned anywhere has a list of transitions of its own.
-/
import Automata.NameSupply
import Std.Data.ExtTreeMap

namespace Automata

/-- The text of the missing label on an epsilon transition. -/
def epsilonLabel : String := "ϵ"

/-- A transition out of a state; without a label it is an epsilon transition. -/
structure Transition where
  /-- The symbol read, if one is read. -/
  label : Option String
  /-- The state it leads to. -/
  target : StateName
  deriving DecidableEq

namespace Transition

def isEpsilon (t : Transition) : Bool := t.label.isNone

def labelText (t : Transition) : String := t.label.getD epsilonLabel

def display (t : Transition) : String := "-" ++ t.labelText ++ "-> " ++ toString t.target

/-- Epsilon before every symbol, then by label, then by target. -/
def order : Transition → Transition → Ordering := compareLex (compareOn label) (compareOn target)

/-- The transitions in ascending order, repeats kept. -/
def sorted (ts : List Transition) : List Transition := ts.mergeSort fun a b => (order a b).isLE

/-- The number of different transitions in a list. -/
def countDistinct (ts : List Transition) : Nat := ts.eraseDups.length

end Transition

/-- An edge of a nondeterministic automaton: a transition with the state it starts from. -/
structure Edge where
  source : StateName
  label : Option String
  target : StateName
  deriving DecidableEq

/-- The transitions of every state, in ascending order of the states. -/
abbrev Relation := Std.ExtTreeMap StateName (List Transition)

instance : DecidableEq Relation := inferInstance

/-- A nondeterministic automaton with one start and one exit. -/
structure Nfa where
  start : StateName
  /-- The accepting state. -/
  exit : StateName
  relation : Relation
  deriving DecidableEq

namespace Nfa

/-- The transitions of a state in their order, or `none` if it does not belong to the automaton. -/
def transitions? (nfa : Nfa) (s : StateName) : Option (List Transition) := nfa.relation[s]?

def states (nfa : Nfa) : List StateName := nfa.relation.keys

def size (nfa : Nfa) : Nat := nfa.relation.size

def isEmpty (nfa : Nfa) : Bool := nfa.relation.isEmpty

/-- All edges, by ascending source and then in the order of the transitions. -/
def edges (nfa : Nfa) : List Edge :=
  nfa.relation.toList.flatMap fun (s, ts) => ts.map fun t => ⟨s, t.label, t.target⟩

theorem mem_edges_iff {nfa : Nfa} {s t : StateName} {l : Option String} :
    ⟨s, l, t⟩ ∈ nfa.edges ↔ ∃ ts, nfa.transitions? s = some ts ∧ ⟨l, t⟩ ∈ ts := by
  simp only [edges, List.mem_flatMap, List.mem_map, transitions?]
  constructor
  · rintro ⟨⟨s', ts⟩, hs, ⟨l', t'⟩, ht, he⟩
    cases he
    exact ⟨ts, Std.ExtTreeMap.mem_toList_iff_getElem?_eq_some.1 hs, ht⟩
  · rintro ⟨ts, hs, ht⟩
    exact ⟨(s, ts), Std.ExtTreeMap.mem_toList_iff_getElem?_eq_some.2 hs, _, ht, rfl⟩

/-- The start, the exit and the target of every edge are states of the automaton. -/
def WellFormed (nfa : Nfa) : Prop :=
  nfa.start ∈ nfa.relation ∧ nfa.exit ∈ nfa.relation ∧ ∀ e ∈ nfa.edges, e.target ∈ nfa.relation

instance (nfa : Nfa) : Decidable nfa.WellFormed :=
  inferInstanceAs (Decidable (_ ∧ _ ∧ _))

/-- The text of an automaton, its edges left out. -/
def display (nfa : Nfa) : String :=
  "NFA start=" ++ toString nfa.start ++ " exit=" ++ toString nfa.exit

end Nfa

end Automata
