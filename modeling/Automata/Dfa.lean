/-
# Deterministic automata

A finite automaton with at most one edge for each state and symbol and no epsilon edges.  It need not be
complete: a word for which an edge is missing is rejected.
-/
import Automata.NameSupply
import Automata.Text.Braced
import Std.Data.ExtTreeMap
import Std.Data.ExtTreeSet

namespace Automata

/-- A deterministic automaton. -/
structure Dfa where
  start : Nat
  accept : Std.ExtTreeSet Nat
  /-- The edges of every state, by symbol. -/
  relation : Std.ExtTreeMap Nat (Std.ExtTreeMap String Nat)
  deriving DecidableEq

namespace Dfa

structure Edge where
  source : Nat
  label : String
  target : Nat
  deriving DecidableEq

/-- The edges out of a state by ascending symbol, or `none` if it does not belong to the automaton. -/
def row? (dfa : Dfa) (s : Nat) : Option (List (String × Nat)) :=
  (dfa.relation[s]?).map (·.toList)

/-- The state reached by one symbol, if there is an edge. -/
def target? (dfa : Dfa) (s : Nat) (symbol : String) : Option Nat :=
  match dfa.relation[s]? with
  | some row => row[symbol]?
  | none => none

def isAccepting (dfa : Dfa) (s : Nat) : Bool := dfa.accept.contains s

def states (dfa : Dfa) : List Nat := dfa.relation.keys

def size (dfa : Dfa) : Nat := dfa.relation.size

def isEmpty (dfa : Dfa) : Bool := dfa.relation.isEmpty

/-- All edges, by ascending source and symbol. -/
def edges (dfa : Dfa) : List Edge :=
  dfa.relation.toList.flatMap fun (s, row) => row.toList.map fun (l, t) => ⟨s, l, t⟩

theorem mem_edges_iff {dfa : Dfa} {s t : Nat} {l : String} :
    ⟨s, l, t⟩ ∈ dfa.edges ↔ dfa.target? s l = some t := by
  simp only [edges, List.mem_flatMap, List.mem_map, target?]
  constructor
  · rintro ⟨⟨s', row⟩, hs, ⟨l', t'⟩, ht, he⟩
    cases he
    simp only [Std.ExtTreeMap.mem_toList_iff_getElem?_eq_some.1 hs]
    exact Std.ExtTreeMap.mem_toList_iff_getElem?_eq_some.1 ht
  · intro h
    split at h
    · next row hs =>
        exact ⟨(s, row), Std.ExtTreeMap.mem_toList_iff_getElem?_eq_some.2 hs, (l, t),
          Std.ExtTreeMap.mem_toList_iff_getElem?_eq_some.2 h, rfl⟩
    · cases h

/-- The symbols on the edges. -/
def alphabet (dfa : Dfa) : Std.ExtTreeSet String := .ofList (dfa.edges.map (·.label))

/-- The start, the accepting states and the target of every edge are states of the automaton. -/
def WellFormed (dfa : Dfa) : Prop :=
  dfa.start ∈ dfa.relation ∧ (∀ s ∈ dfa.accept.toList, s ∈ dfa.relation) ∧
    ∀ e ∈ dfa.edges, e.target ∈ dfa.relation

instance (dfa : Dfa) : Decidable dfa.WellFormed :=
  inferInstanceAs (Decidable (_ ∧ _ ∧ _))

def Edge.display (e : Edge) : String := "-" ++ e.label ++ "-> " ++ toString e.target

/-- The text of an automaton, its edges left out. -/
def display (dfa : Dfa) : String :=
  "DFA start=" ++ toString dfa.start ++ "\naccept=" ++ Text.braced (dfa.accept.toList.map toString)

/-! ## Reading words -/

/-- What reading a word shows. -/
structure Walk where
  /-- The states passed through, the first one included. -/
  path : List Nat
  /-- Whether an edge was missing. -/
  stuck : Bool
  /-- Whether the whole word was read and the last state accepts. -/
  accept : Bool
  deriving DecidableEq

/-- Reads a word from a given state on. -/
def walkFrom (dfa : Dfa) (s : Nat) : List String → Walk
  | [] => ⟨[s], false, dfa.isAccepting s⟩
  | symbol :: word =>
      match dfa.target? s symbol with
      | none => ⟨[s], true, false⟩
      | some t =>
          let rest := dfa.walkFrom t word
          { rest with path := s :: rest.path }

def walk (dfa : Dfa) (word : List String) : Walk := dfa.walkFrom dfa.start word

def accepts (dfa : Dfa) (word : List String) : Bool := (dfa.walk word).accept

end Dfa

end Automata
