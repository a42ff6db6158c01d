/-
# Nothing that the construction relies on fails

The subset construction relies on a number of things which it checks as it goes.  The worklist that all closures share
is empty whenever one is begun; no state is met that does not belong to the automaton, whether in a closure or in a set;
a set that is to be numbered has been recorded; every set with its number is a new pair; and the automaton put together
in the end has all its states.  On a well-formed automaton all of this holds (`Nfa.determinize_safe`).

Where a closure is begun is said by `ClosureBegins`, along the exploration and apart from its result.  The worklist is
empty there because the exploration keeps it so (`Explored.worklist`), and the seeds belong to the automaton because
composite states consist of states of the automaton and so do their moves.
-/
import Automata.Proofs.Subset.Queue

namespace Automata

namespace Subset

variable {nfa : Nfa} {start S : StateSet} {e e' : Exploration} {seeds : List StateName}

/-- In this exploration a closure of these seeds is begun.  The first one is that of the start.  When a set comes up
that is not recorded yet, one follows for each symbol, of the targets collected for it, after those for the symbols
before. -/
inductive ClosureBegins (nfa : Nfa) : List StateName → Exploration → Prop where
  | start : ClosureBegins nfa [nfa.start] .initial
  | targets {start S targets : StateSet} {e₀ e e' : Exploration} {sets rest : List StateSet} {m : Moves}
      {before after : List (String × StateSet)} {a : String} {row : CompositeRow} :
      close nfa [nfa.start] .initial = .ok (start, e₀) → Pops nfa { e₀ with pending := [start] } sets e →
      e.pending = S :: rest → S ∉ e.resolved.keys → moves nfa S = .ok m →
      m.toList = before ++ (a, targets) :: after → closeAll nfa before { e with pending := rest } = .ok (row, e') →
      ClosureBegins nfa targets.toList e'

theorem ClosureBegins.origin (h : ClosureBegins nfa seeds e) (hwf : nfa.WellFormed) :
    e.worklist = [] ∧ ((∀ s, s ∈ seeds ↔ s = nfa.start) ∨
      ∃ S a, nfa.Composite S ∧ (∃ t, nfa.Move S a t) ∧ ∀ t, t ∈ seeds ↔ nfa.Move S a t) := by
  cases h with
  | start => exact ⟨rfl, Or.inl fun s => List.mem_singleton⟩
  | @targets start S targets e₀ e _ sets rest m before after a row hclose hpops hpending _ hmoves hm hrow =>
      obtain ⟨start', _, hclose', hbegin, hstart⟩ := close_start_eq_ok hwf
      cases hclose.symm.trans hclose'
      rw [hbegin] at hpops
      have hexplored := hpops.explored (explored_begin hstart) hwf
      have hS : nfa.Composite S := hexplored.composite S (Or.inr (hpending ▸ List.mem_cons_self))
      obtain ⟨_, hmoves', hM⟩ := moves_eq_ok fun s hs => hS.mem_relation hwf hs
      cases hmoves.symm.trans hmoves'
      have htargets := hM.mem_relation hwf.2.2
      rw [hm] at htargets
      obtain ⟨_, hrow', -⟩ := closeAll_eq_ok (e := { e with pending := rest }) hwf.2.2 hexplored.worklist
        fun p hp => htargets p (List.mem_append_left _ hp)
      cases hrow.symm.trans hrow'
      have ha : (a, targets) ∈ m.toList := hm ▸ List.mem_append_right _ List.mem_cons_self
      rw [Std.ExtTreeMap.mem_toList_iff_getElem?_eq_some] at ha
      have hmem : a ∈ m := Std.ExtTreeMap.mem_iff_isSome_getElem?.2 (by simp [ha])
      refine ⟨hexplored.worklist, Or.inr ⟨S, a, hS, hM.nonempty a hmem, ?_⟩⟩
      intro t
      rw [Std.ExtTreeSet.mem_toList]
      exact hM.mem_collection ha t

/-- The worklist is empty where a closure is begun, and the seeds are states of the automaton. -/
theorem ClosureBegins.ready (h : ClosureBegins nfa seeds e) (hwf : nfa.WellFormed) :
    e.worklist = [] ∧ ∀ s ∈ seeds, s ∈ nfa.relation := by
  obtain ⟨hworklist, horigin⟩ := h.origin hwf
  refine ⟨hworklist, ?_⟩
  intro s hs
  rcases horigin with hstart | ⟨S, a, -, -, hmove⟩
  · exact (hstart s).1 hs ▸ hwf.1
  · obtain ⟨_, _, hedge⟩ := (hmove s).1 hs
    exact hwf.2.2 _ hedge

theorem ClosureBegins.composite (h : ClosureBegins nfa seeds e) (hwf : nfa.WellFormed)
    (hclose : close nfa seeds e = .ok (S, e')) : nfa.Composite S := by
  obtain ⟨hworklist, hseeds⟩ := h.ready hwf
  obtain ⟨T, hclose', hT⟩ := close_eq_ok hwf.2.2 hworklist hseeds
  cases hclose.symm.trans hclose'
  rcases (h.origin hwf).2 with hstart | ⟨U, a, hU, hne, hmove⟩
  · exact .start (hT.congr hstart)
  · exact .move hU hne (hT.congr hmove)

theorem exists_number {resolved : Roster StateSet CompositeRow} (hS : S ∈ resolved.keys) :
    ∃ id, number resolved S = .ok id := by
  obtain ⟨id, hid⟩ := List.mem_iff_getElem?.1 hS
  exact ⟨id, number_eq_ok_iff.2 hid⟩

end Subset

namespace Nfa

open Subset

/-- The deterministic automaton of a well-formed one is always found, and nothing that is relied on for it fails: where
a closure is begun the worklist is empty, and however far it has come it has met states of the automaton only; all
members of recorded sets are states of the automaton; the start and every set that an edge leads to have a number; each
pair of a set and its number is new; and the automaton found has its start, its accepting states and the targets of all
its edges among its states. -/
theorem determinize_safe (nfa : Nfa) (hwf : nfa.WellFormed) : ∃ d start e,
    nfa.determinize = .ok d ∧ exploreAll nfa = .ok (start, e) ∧
    (∀ seeds e', ClosureBegins nfa seeds e' → e'.worklist = [] ∧
      ∀ rounds, ∃ w : Worklist StateName compare, Worklist.run nfa.epsilonTargets rounds ⟨∅, seeds⟩ = .ok w ∧
        ∀ s, s ∈ w.seen ∨ s ∈ w.queue → s ∈ nfa.relation) ∧
    (∀ S ∈ e.resolved.keys, ∀ s ∈ S, s ∈ nfa.relation) ∧
    (∃ id, number e.resolved start = .ok id) ∧
    (∀ S row, (S, row) ∈ e.resolved.entries → ∀ a T, (a, T) ∈ row → ∃ id, number e.resolved T = .ok id) ∧
    Bijection.empty.insertAll e.resolved.keys.zipIdx
      = .ok (e.resolved.keys.zipIdx.map fun _ => true, d.composites) ∧
    d.dfa.WellFormed := by
  obtain ⟨start, e, hexplore, -, hstart, hsteps, hpending⟩ := exploreAll_eq_ok hwf
  have hexplored := (explored_begin hstart).reaches hsteps
  obtain ⟨d, hd, hfollows, hinsert⟩ := determinize_follows hexplore hexplored hpending
  refine ⟨d, start, e, hd, hexplore, ?_, ?_, ?_, ?_, hinsert, hfollows.wellFormed hexplored hpending⟩
  · intro seeds e' hbegins
    obtain ⟨hworklist, hseeds⟩ := hbegins.ready hwf
    exact ⟨hworklist, run_epsilonTargets_eq_ok hwf.2.2 hseeds⟩
  · intro S hS s hs
    exact (hexplored.composite S (Or.inl hS)).mem_relation hwf hs
  · exact exists_number (List.mem_of_getElem? (hexplored.getElem?_keys_zero hpending))
  · intro S row hS a T hT
    have hknown := hexplored.covered S row hS a T hT
    rw [hpending] at hknown
    exact exists_number (hknown.resolve_right List.not_mem_nil)

/-- Epsilon edges in a cycle and a state that nothing leads to, the names with gaps between them. -/
theorem determinize_safe_cycles :
    let lists : List (StateName × List Transition) :=
      [(2, [⟨none, 5⟩, ⟨some "a", 5⟩]), (5, [⟨none, 2⟩, ⟨some "a", 9⟩, ⟨some "b", 2⟩]), (7, [⟨some "c", 7⟩]), (9, [])]
    let nfa : Nfa := ⟨2, 9, .ofList lists⟩
    nfa.WellFormed ∧ ∃ d start e, nfa.determinize = .ok d ∧ exploreAll nfa = .ok (start, e) ∧
      (∀ seeds e', ClosureBegins nfa seeds e' → e'.worklist = []) ∧
      (∀ S ∈ e.resolved.keys, ∀ s ∈ S, s ∈ nfa.relation) ∧ (∃ id, number e.resolved start = .ok id) ∧
      d.dfa.WellFormed := by
  intro lists nfa
  have hwf : nfa.WellFormed := by decide
  obtain ⟨d, start, e, hd, hexplore, hbegins, hmem, hstart, -, -, hdfa⟩ := determinize_safe nfa hwf
  exact ⟨hwf, d, start, e, hd, hexplore, fun seeds e' h => (hbegins seeds e' h).1, hmem, hstart, hdfa⟩

end Nfa

end Automata
