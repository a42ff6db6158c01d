/-
# From an expression to a deterministic automaton

The two constructions one after the other.  Every state of the first automaton lies on a way to its exit, so a word
leads to some state of it if and only if it begins a word of the language.  Hence the deterministic automaton notices
at once when a word cannot be completed any more, and it accepts where the word itself belongs to the language.
-/
import Automata.Proofs.Subset.Language
import Automata.Proofs.Thompson.Trim

namespace Automata.Regex

open Subset

/-- The word begins some word that the expression stands for. -/
def Begins (r : Regex) (u : List String) : Prop := ∃ v, r.Denotes (u ++ v)

variable {r : Regex} {p : Nat} {u v : List String}

/-- A word begins one of the language if and only if it leads to some state of the automaton. -/
theorem begins_iff_path (r : Regex) (p : Nat) (u : List String) :
    r.Begins u ↔ ∃ t, (r.nfaAt p).Path (r.nfaAt p).start u t := by
  constructor
  · rintro ⟨v, hv⟩
    obtain ⟨t, ht, -⟩ := path_append_iff.1 (accepts_nfaAt_iff.2 hv)
    exact ⟨t, ht⟩
  · rintro ⟨t, ht⟩
    have hwf := r.wellFormed_nfaAt p
    have hmem := Nfa.path_mem_relation hwf.2.2 ht hwf.1
    -- Every state lies on a way to the exit, so what leads to it can be completed to a word.
    obtain ⟨-, v, hv⟩ := r.traverses p t (mem_relation_nfaAt.1 hmem)
    have hexit : (r.nfaAt p).Path t v (r.nfaAt p).exit := (path_congr fun _ => mem_edges_nfaAt).2 hv
    exact ⟨v, accepts_nfaAt_iff.1 (ht.append hexit)⟩

theorem Begins.of_append (h : r.Begins (u ++ v)) : r.Begins u := by
  obtain ⟨w, hw⟩ := h
  exact ⟨v ++ w, List.append_assoc u v w ▸ hw⟩

theorem begins_nil (r : Regex) : r.Begins [] :=
  (r.begins_iff_path 0 []).2 ⟨_, .nil _⟩

theorem not_begins_iff {w : List String} : ¬ r.Begins w ↔ ∃ i < w.length, ¬ r.Begins (w.take (i + 1)) := by
  constructor
  · intro h
    have hne : w ≠ [] := fun hw => h (hw ▸ r.begins_nil)
    have hlength := List.length_pos_iff.2 hne
    refine ⟨w.length - 1, Nat.sub_lt hlength Nat.one_pos, ?_⟩
    rwa [Nat.sub_add_cancel hlength, List.take_length]
  · rintro ⟨i, -, hi⟩ h
    exact hi (Begins.of_append (List.take_append_drop (i + 1) w ▸ h))

/-- From every supply that it does not exhaust, an expression gives an automaton and that a deterministic one.
Reading a word, the latter is stuck at a symbol if and only if the word up to this symbol is the first part of it
that begins no word of the language, and it is stuck nowhere if there is no such part.  The state it reaches when it
is not stuck accepts if and only if the word belongs to the language. -/
theorem determinize_recognizes (r : Regex) (supply : StateSupply)
    (h : ∀ e, (r.toNfa supply).1 ≠ .error (.exhausted e)) :
    ∃ nfa d, (r.toNfa supply).1 = .ok nfa ∧ nfa.determinize = .ok d ∧ ∀ w,
      (∀ i, (d.dfa.walk w).StuckAt i ↔
        i < w.length ∧ ¬ r.Begins (w.take (i + 1)) ∧ ∀ j < i, r.Begins (w.take (j + 1))) ∧
      ((d.dfa.walk w).stuck = true ↔ ∃ i < w.length, ¬ r.Begins (w.take (i + 1))) ∧
      ((d.dfa.walk w).stuck = false → ∃ id, (d.dfa.walk w).path.getLast? = some id ∧
        (d.dfa.isAccepting id = true ↔ r.Denotes w)) := by
  have hwf := r.wellFormed_nfaAt supply.next
  obtain ⟨d, hd, hrep⟩ := Nfa.determinize_represents hwf
  refine ⟨r.nfaAt supply.next, d, toNfa_of_not_exhausted h, hd, ?_⟩
  intro w
  refine ⟨?_, ?_, ?_⟩
  · intro i
    simp only [begins_iff_path r supply.next]
    exact hrep.stuckAt_start_iff hwf w i
  · rw [← not_begins_iff, begins_iff_path r supply.next]
    rcases hrep.read_start hwf w with ⟨hstuck, -, hnone⟩ | ⟨hstuck, id, T, -, -, hid, hT⟩
    · exact iff_of_true hstuck hnone
    · obtain ⟨t, ht⟩ := (hrep.composite hid).nonempty
      exact iff_of_false (by simp [hstuck]) (not_not.2 ⟨t, (hT t).1 ht⟩)
  · intro hstuck
    rcases hrep.read_start hwf w with ⟨hstuck', -, -⟩ | ⟨-, id, T, hlast, -, hid, hT⟩
    · rw [hstuck] at hstuck'
      cases hstuck'
    · refine ⟨id, hlast, ?_⟩
      rw [hrep.isAccepting_iff hid, hT]
      exact accepts_nfaAt_iff

/-- A symbol of two characters before any number of empty ones, built with the last names there are. -/
theorem determinize_recognizes_last_names :
    let r : Regex := .cat (.pair (.lit "ab") (.star (.lit "")))
    let supply : StateSupply := ⟨lastState - 5, by decide⟩
    (∀ e, (r.toNfa supply).1 ≠ .error (.exhausted e)) ∧
      ∃ nfa d, (r.toNfa supply).1 = .ok nfa ∧ nfa.determinize = .ok d ∧
        (d.dfa.walk ["ab", "ab", ""]).StuckAt 1 := by
  intro r supply
  have h : ∀ e, (r.toNfa supply).1 ≠ .error (.exhausted e) := by
    rw [toNfa_of_fits (by decide)]
    exact fun _ => nofun
  obtain ⟨nfa, d, hnfa, hd, hwalk⟩ := determinize_recognizes r supply h
  have hbegins : r.Begins ["ab"] := ⟨[], ["ab"], [], rfl, rfl, .nil⟩
  have hends : ¬ r.Begins ["ab", "ab"] := by
    rintro ⟨v, _, w, hsplit, rfl, hw⟩
    have hz : "ab" :: v = w := (List.cons.inj hsplit).2
    cases hw with
    | nil => cases hz
    | append hu _ =>
        obtain rfl := hu
        exact absurd (List.cons.inj hz).1 (by decide)
  refine ⟨h, nfa, d, hnfa, hd, ((hwalk _).1 1).2 ⟨by decide, hends, ?_⟩⟩
  intro j hj
  obtain rfl : j = 0 := Nat.lt_one_iff.1 hj
  exact hbegins

end Automata.Regex
