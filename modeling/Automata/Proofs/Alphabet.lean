/-
# The alphabet

In the deterministic automaton of a well-formed automaton a symbol has an edge if and only if it has one, in the
automaton that it was made from, out of a state that can be reached (`Determinization.Represents.mem_alphabet_iff`).
Edges that cannot be reached add nothing to the alphabet, and no other edge is passed over, whatever epsilon edges lie
before it.

In the automaton of an expression every state can be reached, and the labelled edges are those of the leaves.  Hence the
alphabet consists of the symbols of the leaves, however many of the operands around a leaf may be left out of a word.
-/
import Automata.Proofs.Subset.Language
import Automata.Proofs.Thompson.Literals

namespace Automata

theorem Dfa.mem_alphabet_iff {dfa : Dfa} {a : String} : a ∈ dfa.alphabet ↔ ∃ i j, dfa.target? i a = some j := by
  rw [alphabet, Std.ExtTreeSet.mem_ofList, List.contains_iff_mem, List.mem_map]
  constructor
  · rintro ⟨⟨i, _, j⟩, he, rfl⟩
    exact ⟨i, j, mem_edges_iff.1 he⟩
  · rintro ⟨i, j, hij⟩
    exact ⟨⟨i, a, j⟩, mem_edges_iff.2 hij, rfl⟩

namespace Determinization.Represents

variable {nfa : Nfa} {d : Determinization} {a : String}

theorem exists_composite_of_path (hwf : nfa.WellFormed) (h : d.Represents nfa) {w : List String} {s : StateName}
    (hp : nfa.Path nfa.start w s) : ∃ id S, d.composite? id = some S ∧ s ∈ S := by
  rcases h.read_start hwf w with ⟨-, -, hnone⟩ | ⟨-, id, S, -, -, hid, hS⟩
  · exact absurd ⟨s, hp⟩ hnone
  · exact ⟨id, S, hid, (hS s).2 hp⟩

/-- The alphabet consists of the symbols on the edges out of the states that can be reached. -/
theorem mem_alphabet_iff (hwf : nfa.WellFormed) (h : d.Represents nfa) :
    a ∈ d.dfa.alphabet ↔ ∃ w s t, nfa.Path nfa.start w s ∧ ⟨s, some a, t⟩ ∈ nfa.edges := by
  rw [Dfa.mem_alphabet_iff]
  constructor
  · rintro ⟨i, j, hij⟩
    obtain ⟨S, _, hS, -, ⟨t, s, hs, he⟩, -⟩ := (h.target i a j).1 hij
    obtain ⟨w, hw⟩ := (h.composite hS).exists_path hs
    exact ⟨w, s, t, hw, he⟩
  · rintro ⟨w, s, t, hw, he⟩
    obtain ⟨i, S, hS, hs⟩ := h.exists_composite_of_path hwf hw
    have hsome : d.dfa.target? i a ≠ none := fun hnone => (h.target_eq_none_iff hwf hS).1 hnone ⟨t, s, hs, he⟩
    obtain ⟨j, hj⟩ := Option.ne_none_iff_exists'.1 hsome
    exact ⟨i, j, hj⟩

end Determinization.Represents

namespace Regex

open Thompson

theorem mem_literals_iff {r : Regex} {p : Nat} {a : String} :
    a ∈ r.literals ↔ ∃ s t, ⟨s, some a, t⟩ ∈ (r.nfaAt p).edges := by
  rw [← r.map_snd_literalsAt p, List.mem_map]
  constructor
  · rintro ⟨⟨s, _⟩, hl, rfl⟩
    exact ⟨s, s + 1, mem_edges_nfaAt.2 (mem_edgesAt_iff.2 ⟨hl, rfl⟩)⟩
  · rintro ⟨s, t, he⟩
    exact ⟨(s, a), (mem_edgesAt_iff.1 (mem_edges_nfaAt.1 he)).1, rfl⟩

theorem mem_alphabet_iff {r : Regex} {p : Nat} {d : Determinization} {a : String} (h : d.Represents (r.nfaAt p)) :
    a ∈ d.dfa.alphabet ↔ a ∈ r.literals := by
  have hwf := r.wellFormed_nfaAt p
  rw [h.mem_alphabet_iff hwf, mem_literals_iff (p := p)]
  constructor
  · rintro ⟨-, s, t, -, he⟩
    exact ⟨s, t, he⟩
  · rintro ⟨s, t, he⟩
    have hs : s ∈ (r.nfaAt p).relation := mem_relation_nfaAt.2 (r.inside_edgesAt p _ (mem_edges_nfaAt.1 he)).1
    obtain ⟨⟨w, hw⟩, -⟩ := mem_states_nfaAt_trim (Std.ExtTreeMap.mem_keys.2 hs)
    exact ⟨w, s, t, hw, he⟩

/-- The alphabet of the deterministic automaton that an expression is compiled to is the set of the symbols of its
leaves. -/
theorem determinize_alphabet (r : Regex) (h : ∀ e, r.compile ≠ .error (.exhausted e)) :
    ∃ nfa d, r.compile = .ok nfa ∧ nfa.determinize = .ok d ∧ ∀ a, a ∈ d.dfa.alphabet ↔ a ∈ r.literals := by
  obtain ⟨d, hd, hrep⟩ := Nfa.determinize_represents (r.wellFormed_nfaAt 0)
  exact ⟨r.nfaAt 0, d, toNfa_of_not_exhausted h, hd, fun a => mem_alphabet_iff hrep⟩

/-- A leaf inside repetitions of operands that may all be left out, beside a leaf with the empty symbol. -/
theorem determinize_alphabet_nullable :
    let inner : Regex := .star (.alt (.pair (.cat (.pair .epsilon (.star (.lit "deep")))) (.lit "")))
    let r : Regex := .star (.cat (.pair (Regex.opt inner) (.star .epsilon)))
    (∀ e, r.compile ≠ .error (.exhausted e)) ∧ ∃ nfa d, r.compile = .ok nfa ∧ nfa.determinize = .ok d ∧
      "deep" ∈ d.dfa.alphabet ∧ "" ∈ d.dfa.alphabet ∧ epsilonLabel ∉ d.dfa.alphabet := by
  intro inner r
  have h : ∀ e, r.compile ≠ .error (.exhausted e) := compile_ne_exhausted (by decide)
  obtain ⟨nfa, d, hnfa, hd, halphabet⟩ := determinize_alphabet r h
  exact ⟨h, nfa, d, hnfa, hd, (halphabet _).2 (by decide), (halphabet _).2 (by decide),
    mt (halphabet _).1 (by decide)⟩

end Regex

end Automata
