/-
# Automata that read alike

Two words meet in an automaton when paths spell them and lead to the same states (`Nfa.Meets`).  In the deterministic
automaton such words are read to one end, and no others are (`Represents.meets_iff`).  Since its states are numbered by
words alone, two automata in which the same words meet and that accept the same words have one and the same
deterministic automaton (`Nfa.determinize_eq_of_meets`), however different their states and edges are.
-/
import Automata.Proofs.Subset.Language
import Automata.Proofs.Subset.Order

namespace Automata

/-- Paths spell both words, and the states they lead to are the same for both. -/
def Nfa.Meets (nfa : Nfa) (v w : List String) : Prop :=
  (∃ t, nfa.Path nfa.start v t) ∧ ∀ t, nfa.Path nfa.start v t ↔ nfa.Path nfa.start w t

variable {nfa A B : Nfa} {d : Determinization} {id : Nat} {v w : List String}

namespace Determinization.Represents

theorem composite_unique {S : StateSet} {id' : Nat} (h : d.Represents nfa) (hid : d.composite? id = some S)
    (hid' : d.composite? id' = some S) : id = id' :=
  Option.some.inj (((h.inverse S id).2 hid).symm.trans ((h.inverse S id').2 hid'))

theorem endsAt_iff (hwf : nfa.WellFormed) (h : d.Represents nfa) : (d.dfa.walk w).EndsAt id ↔
    ∃ T, d.composite? id = some T ∧ ∀ t, t ∈ T ↔ nfa.Path nfa.start w t := by
  rcases h.read_start hwf w with ⟨hstuck, -, hnone⟩ | ⟨hstuck, id', T', hlast, -, hid', hT'⟩
  · refine iff_of_false (fun hends => ?_) ?_
    · rw [hends.1] at hstuck
      cases hstuck
    · rintro ⟨T, hid, hT⟩
      obtain ⟨t, ht⟩ := (h.composite hid).nonempty
      exact hnone ⟨t, (hT t).1 ht⟩
  · constructor
    · intro hends
      obtain rfl := hends.unique ⟨hstuck, hlast⟩
      exact ⟨T', hid', hT'⟩
    · rintro ⟨T, hid, hT⟩
      obtain rfl : T = T' := Std.ExtTreeSet.ext_mem fun t => (hT t).trans (hT' t).symm
      obtain rfl := h.composite_unique hid hid'
      exact ⟨hstuck, hlast⟩

theorem exists_endsAt (hwf : nfa.WellFormed) (h : d.Represents nfa) (hw : ∃ t, nfa.Path nfa.start w t) :
    ∃ id, (d.dfa.walk w).EndsAt id := by
  rcases h.read_start hwf w with ⟨-, -, hnone⟩ | ⟨hstuck, id, -, hlast, -⟩
  · exact absurd hw hnone
  · exact ⟨id, hstuck, hlast⟩

theorem meets_iff (hwf : nfa.WellFormed) (h : d.Represents nfa) : d.dfa.Meets v w ↔ nfa.Meets v w := by
  constructor
  · rintro ⟨id, hv, hw⟩
    obtain ⟨T, hid, hT⟩ := (h.endsAt_iff hwf).1 hv
    obtain ⟨T', hid', hT'⟩ := (h.endsAt_iff hwf).1 hw
    obtain rfl := Option.some.inj (hid.symm.trans hid')
    obtain ⟨t, ht⟩ := (h.composite hid).nonempty
    exact ⟨⟨t, (hT t).1 ht⟩, fun t => (hT t).symm.trans (hT' t)⟩
  · rintro ⟨hne, hsame⟩
    obtain ⟨id, hv⟩ := h.exists_endsAt hwf hne
    obtain ⟨T, hid, hT⟩ := (h.endsAt_iff hwf).1 hv
    exact ⟨id, hv, (h.endsAt_iff hwf).2 ⟨T, hid, fun t => (hT t).trans (hsame t)⟩⟩

/-- Where a function on sets carries what each word leads to in the one automaton to what it leads to in the other, and
both have the same deterministic automaton, it carries the sets behind the states of this to each other. -/
theorem composite?_map {dA dB : Determinization} {f : StateSet → StateSet} (hA : A.WellFormed) (hB : B.WellFormed)
    (hrepA : dA.Represents A) (hrepB : dB.Represents B) (hbf : dA.dfa.BreadthFirst) (heq : dA.dfa = dB.dfa)
    (hf : ∀ w S T, (∀ t, t ∈ S ↔ A.Path A.start w t) → (∀ t, t ∈ T ↔ B.Path B.start w t) → T = f S) (id : Nat) :
    dB.composite? id = (dA.composite? id).map f := by
  by_cases hid : id < dA.dfa.size
  · obtain ⟨w, hw, -⟩ := hbf.exists_access hid
    obtain ⟨S, hS, hmemS⟩ := (hrepA.endsAt_iff hA).1 hw
    obtain ⟨T, hT, hmemT⟩ := (hrepB.endsAt_iff hB).1 (heq ▸ hw)
    rw [hS, hT, Option.map_some, hf w S T hmemS hmemT]
  · have hnone : dA.composite? id = none :=
      Option.eq_none_iff_forall_ne_some.2 fun S hS => hid ((hrepA.numbered id).2 ⟨S, hS⟩)
    have hnone' : dB.composite? id = none :=
      Option.eq_none_iff_forall_ne_some.2 fun T hT => hid (heq ▸ (hrepB.numbered id).2 ⟨T, hT⟩)
    rw [hnone, hnone', Option.map_none]

end Determinization.Represents

namespace Nfa

/-- Automata in which the same words meet and that accept the same words have the same deterministic automaton. -/
theorem determinize_eq_of_meets (hA : A.WellFormed) (hB : B.WellFormed) (hmeets : ∀ v w, A.Meets v w ↔ B.Meets v w)
    (haccepts : ∀ w, A.Accepts w ↔ B.Accepts w) : ∃ dA dB, A.determinize = .ok dA ∧ B.determinize = .ok dB ∧
      dA.Represents A ∧ dB.Represents B ∧ dA.dfa.BreadthFirst ∧ dA.dfa = dB.dfa := by
  obtain ⟨dA, hdA, hrepA, hbfA⟩ := determinize_breadthFirst hA
  obtain ⟨dB, hdB, hrepB, hbfB⟩ := determinize_breadthFirst hB
  refine ⟨dA, dB, hdA, hdB, hrepA, hrepB, hbfA, hbfA.eq_of_alike hbfB ?_ ?_⟩
  · intro v w
    rw [hrepA.meets_iff hA, hrepB.meets_iff hB, hmeets]
  · intro w
    rw [Bool.eq_iff_iff, hrepA.accepts_iff hA, hrepB.accepts_iff hB, haccepts]

end Nfa

end Automata
