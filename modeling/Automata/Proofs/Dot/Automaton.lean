/-
# Reading automata off their drawings

A drawing loses nothing: automata with the same drawing, and even with the same text of it, are equal
(`Dot.text_graph_eq_iff`).  Two things are needed beyond what holds of machines.  Of a deterministic automaton only the
states are drawn, so a number that accepts and is no state would not be seen; and an edge without a label is drawn with
the text of epsilon, from which it can be told only if no symbol is this text.
-/
import Automata.Proofs.Dot.Machine
import Automata.Proofs.Dot.Text

namespace Automata

open Dot

namespace Dfa

/-- The states of the automaton as they are drawn when every symbol is its own text. -/
def machineStates (dfa : Dfa) : List MachineState :=
  dfa.relation.toList.map fun (s, row) => ⟨s, row.toList, dfa.isAccepting s⟩

theorem graph_id (dfa : Dfa) : dfa.graph id = machine dfa.machineStates dfa.start := by
  simp [graph, machineStates]

theorem pairwise_machineStates (dfa : Dfa) : dfa.machineStates.Pairwise (·.state < ·.state) :=
  List.pairwise_map.2 (Std.ExtTreeMap.ordered_keys_toList.imp Nat.compare_eq_lt.1)

variable {D E : Dfa}

theorem relation_eq_of_machineStates_eq (h : D.machineStates = E.machineStates) : D.relation = E.relation := by
  have hrows : ∀ dfa : Dfa, (dfa.machineStates.map fun m => (m.state, m.edges)) =
      dfa.relation.toList.map fun p => (p.1, p.2.toList) := by
    intro dfa
    rw [machineStates, List.map_map]
    rfl
  have hinj : Function.Injective fun p : Nat × Std.ExtTreeMap String Nat => (p.1, p.2.toList) := by
    intro p q hpq
    exact Prod.ext (Prod.mk.inj hpq).1 (Std.ExtTreeMap.toList_inj.1 (Prod.mk.inj hpq).2)
  have hlists := congrArg (List.map fun m => (m.state, m.edges)) h
  rw [hrows, hrows] at hlists
  exact Std.ExtTreeMap.toList_inj.1 (hinj.list_map hlists)

theorem isAccepting_of_machineStates_eq (h : D.machineStates = E.machineStates) {s : Nat} (hs : s ∈ D.relation) :
    D.isAccepting s = E.isAccepting s := by
  obtain ⟨row, hrow⟩ := Option.isSome_iff_exists.1 (Std.ExtTreeMap.mem_iff_isSome_getElem?.1 hs)
  rw [machineStates, machineStates, ← relation_eq_of_machineStates_eq h, List.map_inj_left] at h
  have hstate := h (s, row) (Std.ExtTreeMap.mem_toList_iff_getElem?_eq_some.2 hrow)
  exact (MachineState.mk.inj hstate).2.2

theorem graph_inj (hD : D.WellFormed) (hE : E.WellFormed) (h : D.graph id = E.graph id) : D = E := by
  rw [graph_id, graph_id] at h
  obtain ⟨hstates, hstart⟩ := machine_inj D.pairwise_machineStates E.pairwise_machineStates h
  have hrelation := relation_eq_of_machineStates_eq hstates
  have hsub : ∀ {D E : Dfa}, D.WellFormed → D.machineStates = E.machineStates → ∀ s ∈ D.accept, s ∈ E.accept := by
    intro D E hD hstates s hs
    have hstate := hD.2.1 s (Std.ExtTreeSet.mem_toList.2 hs)
    rw [← Std.ExtTreeSet.contains_iff_mem] at hs ⊢
    exact (isAccepting_of_machineStates_eq hstates hstate).symm.trans hs
  have haccept : D.accept = E.accept :=
    Std.ExtTreeSet.ext_mem fun s => ⟨hsub hD hstates s, hsub hE hstates.symm s⟩
  cases D
  cases E
  simp_all

end Dfa

namespace Nfa

/-- The states of the automaton as they are drawn when every symbol is its own text. -/
def machineStates (nfa : Nfa) : List MachineState :=
  nfa.relation.toList.map fun (s, ts) => ⟨s, ts.map fun t => (t.labelText, t.target), s = nfa.exit⟩

theorem graph_id (nfa : Nfa) : nfa.graph id = machine nfa.machineStates nfa.start := by
  simp [graph, machineStates, Transition.labelText]

theorem pairwise_machineStates (nfa : Nfa) : nfa.machineStates.Pairwise (·.state < ·.state) :=
  List.pairwise_map.2 (Std.ExtTreeMap.ordered_keys_toList.imp Nat.compare_eq_lt.1)

/-- The transition whose drawing has this text and leads to this state. -/
def transitionOf (e : String × Nat) : Transition := ⟨if e.1 = epsilonLabel then none else some e.1, e.2⟩

theorem transitionOf_labelText {t : Transition} (h : t.label ≠ some epsilonLabel) :
    transitionOf (t.labelText, t.target) = t := by
  obtain ⟨l, t⟩ := t
  cases l with
  | none => rfl
  | some a =>
      have ha : a ≠ epsilonLabel := fun ha => h (congrArg some ha)
      simp [transitionOf, Transition.labelText, ha]

variable {A B : Nfa}

/-- The transitions can be read off the states as they are drawn, if no symbol looks like a missing one. -/
theorem toList_relation_eq (h : ∀ e ∈ A.edges, e.label ≠ some epsilonLabel) :
    A.relation.toList = A.machineStates.map fun m => (m.state, m.edges.map transitionOf) := by
  have hread : ∀ p ∈ A.relation.toList, (p.1, (p.2.map fun t => (t.labelText, t.target)).map transitionOf) = p := by
    rintro ⟨s, ts⟩ hs
    have hts : ∀ t ∈ ts, transitionOf (t.labelText, t.target) = t := by
      intro t ht
      refine transitionOf_labelText (h ⟨s, t.label, t.target⟩ (mem_edges_iff.2 ⟨ts, ?_, ht⟩))
      exact Std.ExtTreeMap.mem_toList_iff_getElem?_eq_some.1 hs
    exact Prod.ext rfl ((List.map_map ..).trans ((List.map_congr_left hts).trans (List.map_id' ts)))
  rw [machineStates, List.map_map]
  exact ((List.map_congr_left hread).trans (List.map_id' _)).symm

theorem exit_eq_of_machineStates_eq (hA : A.WellFormed) (hrelation : A.relation = B.relation)
    (h : A.machineStates = B.machineStates) : A.exit = B.exit := by
  obtain ⟨ts, hts⟩ := Option.isSome_iff_exists.1 (Std.ExtTreeMap.mem_iff_isSome_getElem?.1 hA.2.1)
  rw [machineStates, machineStates, ← hrelation, List.map_inj_left] at h
  have hstate := h (A.exit, ts) (Std.ExtTreeMap.mem_toList_iff_getElem?_eq_some.2 hts)
  simpa using (MachineState.mk.inj hstate).2.2

theorem graph_inj (hA : A.WellFormed) (hAsymbols : ∀ e ∈ A.edges, e.label ≠ some epsilonLabel)
    (hBsymbols : ∀ e ∈ B.edges, e.label ≠ some epsilonLabel) (h : A.graph id = B.graph id) : A = B := by
  rw [graph_id, graph_id] at h
  obtain ⟨hstates, hstart⟩ := machine_inj A.pairwise_machineStates B.pairwise_machineStates h
  have hrelation : A.relation = B.relation := by
    rw [← Std.ExtTreeMap.toList_inj, toList_relation_eq hAsymbols, toList_relation_eq hBsymbols, hstates]
  have hexit := exit_eq_of_machineStates_eq hA hrelation hstates
  cases A
  cases B
  simp_all

end Nfa

namespace Dot

/-- The drawings of two deterministic automata have the same text if and only if the automata are equal, whichever
characters are written by code point inside quotes; likewise for two nondeterministic automata in which no edge is
labelled by the text of epsilon. -/
theorem text_graph_eq_iff :
    (∀ D E : Dfa, D.WellFormed → E.WellFormed →
      (∀ escaped, (D.graph id).text escaped = (E.graph id).text escaped ↔ D = E) ∧
        ((D.graph id).display = (E.graph id).display ↔ D = E)) ∧
    ∀ A B : Nfa, A.WellFormed → B.WellFormed → (∀ e ∈ A.edges, e.label ≠ some epsilonLabel) →
      (∀ e ∈ B.edges, e.label ≠ some epsilonLabel) →
      (∀ escaped, (A.graph id).text escaped = (B.graph id).text escaped ↔ A = B) ∧
        ((A.graph id).display = (B.graph id).display ↔ A = B) := by
  constructor
  · intro D E hD hE
    have hgraph : D.graph id = E.graph id ↔ D = E := ⟨Dfa.graph_inj hD hE, fun h => h ▸ rfl⟩
    exact ⟨fun escaped => Graph.text_eq_iff.trans hgraph, Graph.display_eq_iff.trans hgraph⟩
  · intro A B hA _ hAsymbols hBsymbols
    have hgraph : A.graph id = B.graph id ↔ A = B := ⟨Nfa.graph_inj hA hAsymbols hBsymbols, fun h => h ▸ rfl⟩
    exact ⟨fun escaped => Graph.text_eq_iff.trans hgraph, Graph.display_eq_iff.trans hgraph⟩

/-- A state that no edge enters and the order of two edges are seen in the text, beside a symbol that could be the text
of an edge. -/
theorem text_graph_ne_of_isolated_of_order :
    let row : Std.ExtTreeMap String Nat := .insert ∅ "a\"];\"n2\"" 1
    let D : Dfa := ⟨0, .insert ∅ 1, .insert (.insert ∅ 0 row) 1 ∅⟩
    let E : Dfa := ⟨0, .insert ∅ 1, .insert (.insert (.insert ∅ 0 row) 1 ∅) 2 ∅⟩
    let A : Nfa := ⟨0, 1, .insert (.insert ∅ 0 [⟨some "\"->\"", 1⟩, ⟨none, 1⟩]) 1 []⟩
    let B : Nfa := ⟨0, 1, .insert (.insert ∅ 0 [⟨none, 1⟩, ⟨some "\"->\"", 1⟩]) 1 []⟩
    (D.WellFormed ∧ E.WellFormed ∧ (D.graph id).display ≠ (E.graph id).display) ∧
      A.WellFormed ∧ B.WellFormed ∧ (∀ e ∈ A.edges, e.label ≠ some epsilonLabel) ∧
        (∀ e ∈ B.edges, e.label ≠ some epsilonLabel) ∧ (A.graph id).display ≠ (B.graph id).display := by
  intro row D E A B
  have hD : D.WellFormed := by decide +kernel
  have hE : E.WellFormed := by decide +kernel
  have hA : A.WellFormed := by decide +kernel
  have hB : B.WellFormed := by decide +kernel
  have hAsymbols : ∀ e ∈ A.edges, e.label ≠ some epsilonLabel := by decide +kernel
  have hBsymbols : ∀ e ∈ B.edges, e.label ≠ some epsilonLabel := by decide +kernel
  have hDE : D ≠ E := by decide +kernel
  have hAB : A ≠ B := by decide +kernel
  exact ⟨⟨hD, hE, mt (text_graph_eq_iff.1 D E hD hE).2.1 hDE⟩,
    hA, hB, hAsymbols, hBsymbols, mt (text_graph_eq_iff.2 A B hA hB hAsymbols hBsymbols).2.1 hAB⟩

end Dot

end Automata
