/-
# The subset construction keeps the language

Reading a word in the deterministic automaton follows all paths at once: after a word it stands on the set of the
states that paths spelling the word lead to, and it is stuck when there is none (`Determinization.Represents.read`).
One symbol of this is `path_cons_iff`: since composite states are closed under epsilon edges, a path that reads a
symbol next crosses an edge with it straight from the set, up to epsilon edges that the set has taken already.
-/
import Automata.Proofs.Dfa.Words
import Automata.Proofs.Subset.Structure

namespace Automata

open Subset

variable {nfa : Nfa} {S T : StateSet} {t : StateName} {a : String} {w : List String}

/-- Some path out of a member of the set spells the word. -/
def Nfa.Reads (nfa : Nfa) (S : StateSet) (w : List String) : Prop := ∃ t, ∃ s ∈ S, nfa.Path s w t

/-- The walk ends at the symbol with the given index, for which there is no edge. -/
def Dfa.Walk.StuckAt (walk : Dfa.Walk) (i : Nat) : Prop := walk.stuck = true ∧ walk.path.length = i + 1

/-- Reading one more symbol out of a closed set is reading on from the closure of what it moves to. -/
theorem Nfa.path_cons_iff (hS : nfa.Composite S) (hT : nfa.IsClosure (nfa.Move S a) T) :
    (∃ s ∈ S, nfa.Path s (a :: w) t) ↔ ∃ s ∈ T, nfa.Path s w t := by
  constructor
  · rintro ⟨s, hs, hp⟩
    obtain ⟨x, y, hx, hxy, hy⟩ := hp.cons_inv
    exact ⟨y, (hT y).2 ⟨y, ⟨x, hS.mem_of_path hs hx, hxy⟩, .nil y⟩, hy⟩
  · rintro ⟨s, hs, hp⟩
    obtain ⟨y, ⟨x, hx, hxy⟩, hy⟩ := (hT s).1 hs
    exact ⟨x, hx, .symbol hxy (hy.append hp)⟩

theorem Nfa.not_reads_cons (hS : nfa.Composite S) (hmove : ¬ ∃ t, nfa.Move S a t) :
    ¬ nfa.Reads S (a :: w) := by
  rintro ⟨t, s, hs, hp⟩
  obtain ⟨x, y, hx, hxy, -⟩ := hp.cons_inv
  exact hmove ⟨y, x, hS.mem_of_path hs hx, hxy⟩

namespace Determinization.Represents

variable {d : Determinization} {id : Nat}

/-- Reading a word either gets stuck, and no path out of the set spells it, or ends on the set of the states that
such paths lead to. -/
theorem read (hwf : nfa.WellFormed) (h : d.Represents nfa) (hid : d.composite? id = some S) :
    ((d.dfa.walkFrom id w).stuck = true ∧ (d.dfa.walkFrom id w).accept = false ∧ ¬ nfa.Reads S w) ∨
      ((d.dfa.walkFrom id w).stuck = false ∧ ∃ id' T, (d.dfa.walkFrom id w).path.getLast? = some id' ∧
        (d.dfa.walkFrom id w).accept = d.dfa.isAccepting id' ∧ d.composite? id' = some T ∧
        ∀ t, t ∈ T ↔ ∃ s ∈ S, nfa.Path s w t) := by
  induction w generalizing id S with
  | nil =>
      refine Or.inr ⟨rfl, id, S, rfl, rfl, hid, ?_⟩
      intro t
      constructor
      · intro ht
        exact ⟨t, ht, .nil t⟩
      · rintro ⟨s, hs, hp⟩
        exact (h.composite hid).mem_of_path hs hp
  | cons a w ih =>
      cases htarget : d.dfa.target? id a with
      | none =>
          have hmove := (h.target_eq_none_iff hwf hid).1 htarget
          simp only [Dfa.walkFrom, htarget]
          exact Or.inl ⟨trivial, trivial, Nfa.not_reads_cons (h.composite hid) hmove⟩
      | some j =>
          obtain ⟨T, hj, -, hT⟩ := (h.target_iff hid).1 htarget
          simp only [Dfa.walkFrom, htarget, Nfa.Reads, Nfa.path_cons_iff (h.composite hid) hT]
          rcases ih hj with hstuck | ⟨hstuck, id', T', hlast, hrest⟩
          · exact Or.inl hstuck
          · exact Or.inr ⟨hstuck, id', T', by rw [List.getLast?_cons, hlast]; rfl, hrest⟩

theorem stuckAt_iff (hwf : nfa.WellFormed) (h : d.Represents nfa) (hid : d.composite? id = some S) {i : Nat} :
    (d.dfa.walkFrom id w).StuckAt i ↔
      i < w.length ∧ ¬ nfa.Reads S (w.take (i + 1)) ∧ ∀ j < i, nfa.Reads S (w.take (j + 1)) := by
  induction w generalizing i id S with
  | nil => simp [Dfa.walkFrom, Dfa.Walk.StuckAt]
  | cons a w ih =>
      cases htarget : d.dfa.target? id a with
      | none =>
          have hmove := (h.target_eq_none_iff hwf hid).1 htarget
          have hno : ∀ u, ¬ nfa.Reads S (a :: u) := fun _ => Nfa.not_reads_cons (h.composite hid) hmove
          simp only [Dfa.walkFrom, htarget, Dfa.Walk.StuckAt, List.length_singleton, List.take_succ_cons]
          constructor
          · rintro ⟨-, hi⟩
            obtain rfl : i = 0 := by omega
            exact ⟨Nat.zero_lt_succ _, hno _, fun j hj => absurd hj (Nat.not_lt_zero j)⟩
          · rintro ⟨-, -, hall⟩
            by_cases hi : i = 0
            · exact ⟨trivial, by omega⟩
            · exact absurd (hall 0 (Nat.pos_of_ne_zero hi)) (hno _)
      | some k =>
          obtain ⟨T, hk, -, hT⟩ := (h.target_iff hid).1 htarget
          have hreads : ∀ u, nfa.Reads S (a :: u) ↔ nfa.Reads T u := fun u =>
            exists_congr fun t => Nfa.path_cons_iff (h.composite hid) hT
          have hempty : nfa.Reads T [] := by
            obtain ⟨t, ht⟩ := (h.composite hk).nonempty
            exact ⟨t, t, ht, .nil t⟩
          cases i with
          | zero =>
              -- One symbol has been read, so the walk does not end at the first.
              have hpath := List.length_pos_iff.2 (d.dfa.path_walkFrom_ne_nil k w)
              simp only [Dfa.walkFrom, htarget, Dfa.Walk.StuckAt, List.length_cons, List.take_succ_cons,
                List.take_zero, hreads]
              constructor
              · rintro ⟨-, hi⟩
                omega
              · rintro ⟨-, hno, -⟩
                exact absurd hempty hno
          | succ i =>
              have ih := ih hk (i := i)
              simp only [Dfa.walkFrom, htarget, Dfa.Walk.StuckAt, List.length_cons, List.take_succ_cons, hreads,
                Nat.add_right_cancel_iff, Nat.add_lt_add_iff_right] at ih ⊢
              rw [ih, Nat.forall_lt_succ_left, List.take_zero, and_iff_right hempty]

theorem path_first_iff (h : d.Represents nfa) : ∃ S, d.composite? d.dfa.start = some S ∧
    ∀ w t, (∃ s ∈ S, nfa.Path s w t) ↔ nfa.Path nfa.start w t := by
  obtain ⟨S, hS, hstart⟩ := h.first
  refine ⟨S, h.start ▸ hS, ?_⟩
  intro w t
  constructor
  · rintro ⟨s, hs, hp⟩
    obtain ⟨_, rfl, hstart⟩ := (hstart s).1 hs
    exact hstart.append hp
  · intro hp
    exact ⟨nfa.start, (hstart _).2 ⟨_, rfl, .nil _⟩, hp⟩

theorem read_start (hwf : nfa.WellFormed) (h : d.Represents nfa) (w : List String) :
    ((d.dfa.walk w).stuck = true ∧ (d.dfa.walk w).accept = false ∧ ¬ ∃ t, nfa.Path nfa.start w t) ∨
      ((d.dfa.walk w).stuck = false ∧ ∃ id T, (d.dfa.walk w).path.getLast? = some id ∧
        (d.dfa.walk w).accept = d.dfa.isAccepting id ∧ d.composite? id = some T ∧
        ∀ t, t ∈ T ↔ nfa.Path nfa.start w t) := by
  obtain ⟨S, hS, hpath⟩ := h.path_first_iff
  have hread := h.read hwf hS (w := w)
  rw [← Dfa.walk] at hread
  simpa only [Nfa.Reads, hpath] using hread

theorem stuckAt_start_iff (hwf : nfa.WellFormed) (h : d.Represents nfa) (w : List String) (i : Nat) :
    (d.dfa.walk w).StuckAt i ↔ i < w.length ∧ (¬ ∃ t, nfa.Path nfa.start (w.take (i + 1)) t) ∧
      ∀ j < i, ∃ t, nfa.Path nfa.start (w.take (j + 1)) t := by
  obtain ⟨S, hS, hpath⟩ := h.path_first_iff
  have hstuck := h.stuckAt_iff hwf hS (w := w) (i := i)
  rw [← Dfa.walk] at hstuck
  simpa only [Nfa.Reads, hpath] using hstuck

theorem accepts_iff (hwf : nfa.WellFormed) (h : d.Represents nfa) :
    d.dfa.accepts w = true ↔ nfa.Accepts w := by
  rw [Dfa.accepts, Nfa.Accepts]
  rcases h.read_start hwf w with ⟨-, haccept, hnone⟩ | ⟨-, id, T, -, haccept, hid, hT⟩
  · rw [haccept]
    exact ⟨nofun, fun hp => absurd ⟨_, hp⟩ hnone⟩
  · rw [haccept, h.isAccepting_iff hid, hT]

end Determinization.Represents

namespace Nfa

/-- A well-formed automaton has a deterministic one, and that accepts the same words. -/
theorem determinize_accepts_iff (nfa : Nfa) (hwf : nfa.WellFormed) :
    ∃ d, nfa.determinize = .ok d ∧ ∀ w, d.dfa.accepts w = true ↔ nfa.Accepts w := by
  obtain ⟨d, hd, h⟩ := determinize_represents hwf
  exact ⟨d, hd, fun w => h.accepts_iff hwf⟩

/-- One state that is start and exit, with an epsilon edge to itself, beside states of an epsilon cycle. -/
theorem determinize_accepts_iff_loops :
    let lists : List (StateName × List Transition) :=
      [(2, [⟨none, 2⟩, ⟨some "a", 8⟩, ⟨some "a", 2⟩, ⟨some "a", 8⟩]), (6, [⟨none, 8⟩]),
        (8, [⟨none, 6⟩, ⟨some "ab", 2⟩])]
    let nfa : Nfa := ⟨2, 2, .ofList lists⟩
    nfa.WellFormed ∧ ∃ d, nfa.determinize = .ok d ∧ ∀ w, d.dfa.accepts w = true ↔ nfa.Accepts w := by
  intro lists nfa
  have hwf : nfa.WellFormed := by decide
  exact ⟨hwf, determinize_accepts_iff nfa hwf⟩

end Nfa

end Automata
