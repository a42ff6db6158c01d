/-
# The structure of the deterministic automaton

The deterministic automaton of a well-formed automaton is determined up to the numbers of its states, and described
without the exploration: its states are the composite states, its edges the moves between them followed by closure,
and it accepts where the exit is a member.  A state without an edge for a symbol is a set that moves nowhere by it,
so the empty set never becomes a state.
-/
import Automata.Proofs.Subset.Numbering

namespace Automata

open Subset

/-- The states of the deterministic automaton are the composite states, under the numbers from 0 on. -/
structure Determinization.Represents (d : Determinization) (nfa : Nfa) : Prop where
  start : d.dfa.start = 0
  first : ∃ S, d.composite? 0 = some S ∧ nfa.IsClosure (· = nfa.start) S
  states : d.dfa.states = List.range d.dfa.size
  numbered : ∀ id, id < d.dfa.size ↔ ∃ S, d.composite? id = some S
  inverse : ∀ S id, d.stateOf? S = some id ↔ d.composite? id = some S
  family : ∀ S, nfa.Composite S ↔ ∃ id, d.composite? id = some S
  target : ∀ id a j, d.dfa.target? id a = some j ↔ ∃ S T, d.composite? id = some S ∧
    d.composite? j = some T ∧ (∃ t, nfa.Move S a t) ∧ nfa.IsClosure (nfa.Move S a) T
  accepting : ∀ id, d.dfa.isAccepting id = true ↔ ∃ S, d.composite? id = some S ∧ nfa.exit ∈ S

variable {nfa : Nfa} {d : Determinization} {e : Exploration} {start S : StateSet} {id : Nat} {a : String}

theorem Subset.Follows.size_eq (h : Follows nfa e d) : d.dfa.size = e.resolved.keys.length := by
  rw [Dfa.size, ← Std.ExtTreeMap.length_keys, ← Dfa.states, h.numbers.states, List.length_range]

/-- Numbering the whole exploration represents the composite states. -/
theorem Subset.Follows.represents (h : Follows nfa e d) (hexplored : Explored nfa start e)
    (hpending : e.pending = []) (hstart : nfa.IsClosure (· = nfa.start) start) : d.Represents nfa := by
  have hsize := h.size_eq
  have hentry : ∀ {id : Nat} {S : StateSet}, d.composite? id = some S ↔
      ∃ row, e.resolved.entries[id]? = some (S, row) := by
    intro id S
    rw [h.composite, Roster.keys, List.getElem?_map, Option.map_eq_some_iff]
    constructor
    · rintro ⟨⟨_, row⟩, hid, rfl⟩
      exact ⟨row, hid⟩
    · rintro ⟨row, hid⟩
      exact ⟨(S, row), hid, rfl⟩
  exact {
    start := h.start
    first := ⟨start, (h.composite 0).trans (hexplored.getElem?_keys_zero hpending), hstart⟩
    states := by
      rw [hsize]
      exact h.numbers.states
    numbered := by
      intro id
      rw [h.composite, hsize]
      constructor
      · intro hid
        exact ⟨_, List.getElem?_eq_getElem hid⟩
      · rintro ⟨_, hS⟩
        exact (List.getElem?_eq_some_iff.1 hS).1
    inverse := by
      intro S id
      rw [h.composite]
      exact h.stateOf S id
    family := by
      intro S
      rw [← hexplored.mem_keys_iff hpending hstart, List.mem_iff_getElem?]
      exact exists_congr fun id => by rw [h.composite]
    target := by
      intro id a j
      rw [h.numbers.target]
      constructor
      · rintro ⟨S, row, T, hid, hT, hj⟩
        have hrow := hexplored.row S row (List.mem_of_getElem? hid)
        exact ⟨S, T, hentry.2 ⟨row, hid⟩, (h.composite j).trans hj, (hrow.mem a T).1 hT⟩
      · rintro ⟨S, T, hid, hj, hT⟩
        obtain ⟨row, hid⟩ := hentry.1 hid
        have hrow := hexplored.row S row (List.mem_of_getElem? hid)
        exact ⟨S, row, T, hid, (hrow.mem a T).2 hT, (h.composite j).symm.trans hj⟩
    accepting := by
      intro id
      rw [h.numbers.accepting]
      exact exists_congr fun S => by rw [h.composite] }

theorem Nfa.determinize_follows_exploration (hwf : nfa.WellFormed) : ∃ d start e, nfa.determinize = .ok d ∧
    Follows nfa e d ∧ nfa.IsClosure (· = nfa.start) start ∧
    Relation.ReflTransGen (Advances nfa) (.begin start) e ∧ e.pending = [] := by
  obtain ⟨start, e, hexplore, -, hstart, hsteps, hpending⟩ := exploreAll_eq_ok hwf
  have hexplored := (explored_begin hstart).reaches hsteps
  obtain ⟨d, hd, hfollows, -⟩ := determinize_follows hexplore hexplored hpending
  exact ⟨d, start, e, hd, hfollows, hstart, hsteps, hpending⟩

theorem Nfa.determinize_represents (hwf : nfa.WellFormed) :
    ∃ d, nfa.determinize = .ok d ∧ d.Represents nfa := by
  obtain ⟨d, start, e, hd, hfollows, hstart, hsteps, hpending⟩ := determinize_follows_exploration hwf
  exact ⟨d, hd, hfollows.represents ((explored_begin hstart).reaches hsteps) hpending hstart⟩

namespace Determinization.Represents

/-! ## Reading off the edges -/

theorem composite (h : d.Represents nfa) (hid : d.composite? id = some S) : nfa.Composite S :=
  (h.family S).2 ⟨id, hid⟩

theorem target_iff (h : d.Represents nfa) (hid : d.composite? id = some S) {j : Nat} :
    d.dfa.target? id a = some j ↔
      ∃ T, d.composite? j = some T ∧ (∃ t, nfa.Move S a t) ∧ nfa.IsClosure (nfa.Move S a) T := by
  rw [h.target]
  constructor
  · rintro ⟨S', T, hid', hj⟩
    obtain rfl := Option.some.inj (hid.symm.trans hid')
    exact ⟨T, hj⟩
  · rintro ⟨T, hj⟩
    exact ⟨S, T, hid, hj⟩

theorem target_eq_none_iff (hwf : nfa.WellFormed) (h : d.Represents nfa) (hid : d.composite? id = some S) :
    d.dfa.target? id a = none ↔ ¬ ∃ t, nfa.Move S a t := by
  constructor
  · intro hnone hmove
    have htargets : ∀ t, nfa.Move S a t → t ∈ nfa.relation := by
      rintro t ⟨_, _, he⟩
      exact hwf.2.2 _ he
    obtain ⟨T, hT⟩ := nfa.exists_isClosure hwf.2.2 htargets
    obtain ⟨j, hj⟩ := (h.family T).1 (.move (h.composite hid) hmove hT)
    have htarget := (h.target_iff hid).2 ⟨T, hj, hmove, hT⟩
    rw [hnone] at htarget
    cases htarget
  · intro hmove
    refine Option.eq_none_iff_forall_ne_some.2 ?_
    intro j hj
    obtain ⟨_, _, hne, _⟩ := (h.target_iff hid).1 hj
    exact hmove hne

theorem isAccepting_iff (h : d.Represents nfa) (hid : d.composite? id = some S) :
    d.dfa.isAccepting id = true ↔ nfa.exit ∈ S := by
  rw [h.accepting]
  constructor
  · rintro ⟨S', hid', hexit⟩
    obtain rfl := Option.some.inj (hid.symm.trans hid')
    exact hexit
  · intro hexit
    exact ⟨S, hid, hexit⟩

end Determinization.Represents

namespace Nfa

/-- A well-formed automaton has a deterministic one.  Its states are the numbers below some bound, which stand for
the composite states one to one; state 0 is the start and stands for the closure of the start; a state accepts if its
set has the exit for a member; and by a symbol it leads nowhere if its set moves nowhere by it, and otherwise to the
state that stands for the closure of what its set moves to. -/
theorem determinize_structure (nfa : Nfa) (hwf : nfa.WellFormed) : ∃ d, nfa.determinize = .ok d ∧
    d.dfa.states = List.range d.dfa.size ∧
    (∀ id, id < d.dfa.size ↔ ∃ S, d.composite? id = some S) ∧
    (∀ S, nfa.Composite S ↔ ∃ id, d.stateOf? S = some id) ∧
    (∀ S id, d.stateOf? S = some id ↔ d.composite? id = some S) ∧
    d.dfa.start = 0 ∧ (∃ S, d.composite? 0 = some S ∧ nfa.IsClosure (· = nfa.start) S) ∧
    ∀ id S, d.composite? id = some S →
      (d.dfa.isAccepting id = true ↔ nfa.exit ∈ S) ∧
      ∀ a, (d.dfa.target? id a = none ↔ ¬ ∃ t, nfa.Move S a t) ∧
        ((∃ t, nfa.Move S a t) → ∃ j T, d.dfa.target? id a = some j ∧ d.composite? j = some T ∧
          nfa.IsClosure (nfa.Move S a) T) := by
  obtain ⟨d, hd, h⟩ := determinize_represents hwf
  refine ⟨d, hd, h.states, h.numbered, ?_, h.inverse, h.start, h.first, ?_⟩
  · intro S
    rw [h.family]
    exact exists_congr fun id => (h.inverse S id).symm
  · intro id S hid
    refine ⟨h.isAccepting_iff hid, ?_⟩
    intro a
    refine ⟨h.target_eq_none_iff hwf hid, ?_⟩
    intro hmove
    have hsome : d.dfa.target? id a ≠ none := fun hnone => (h.target_eq_none_iff hwf hid).1 hnone hmove
    obtain ⟨j, hj⟩ := Option.ne_none_iff_exists'.1 hsome
    obtain ⟨T, hT, -, hclosure⟩ := (h.target_iff hid).1 hj
    exact ⟨j, T, hj, hT, hclosure⟩

/-- Epsilon cycles, an edge given twice, edges out of the exit and a state that is never reached. -/
theorem determinize_structure_cycles :
    let lists : List (StateName × List Transition) :=
      [(3, [⟨some "a", 7⟩, ⟨none, 5⟩]), (5, [⟨none, 3⟩, ⟨some "b", 3⟩, ⟨some "b", 3⟩]),
        (7, [⟨some "a", 3⟩, ⟨some "a", 5⟩, ⟨none, 7⟩]), (9, [⟨some "", 3⟩])]
    let nfa : Nfa := ⟨7, 3, .ofList lists⟩
    nfa.WellFormed ∧ ∃ d, nfa.determinize = .ok d ∧ d.dfa.states = List.range d.dfa.size ∧
      ∀ S, nfa.Composite S ↔ ∃ id, d.stateOf? S = some id := by
  intro lists nfa
  have hwf : nfa.WellFormed := by decide
  obtain ⟨d, hd, hstates, -, hfamily, -⟩ := determinize_structure nfa hwf
  exact ⟨hwf, d, hd, hstates, hfamily⟩

end Nfa

end Automata
