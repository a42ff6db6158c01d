/-
# Automata in which a state remembers the last symbol

In the automata considered here a state behind a labelled edge is entered by no epsilon edge and by edges with one
symbol only, and the start is no such state (`Nfa.Positional`).  Such a state belongs to the closure of some states only
if it is one of them (`Nfa.IsClosure.mem_iff_of_entered`).  Hence the set behind a state of the deterministic automaton
other than the start is determined by the states behind labelled edges that it holds, and these are all behind edges
with the symbol that was read last.

Two facts on the deterministic automaton follow.  No edge leads back to the start, and edges that lead to one state
have one symbol (`Determinization.Represents.label_eq`).  And there are not more states than the sets of states behind
edges with one symbol allow (`Determinization.Represents.size_le`), whatever epsilon edges there are besides.

The automaton of an expression is of this kind, with one state for each leaf.
-/
import Mathlib.Algebra.BigOperators.Group.Finset.Basic
import Mathlib.Algebra.Order.BigOperators.Group.Finset
import Mathlib.Data.Finset.Powerset
import Mathlib.Order.Interval.Finset.Nat
import Automata.Proofs.Thompson.Literals

namespace Automata

/-- States behind labelled edges are entered by no epsilon edge and by edges with one symbol only, and the start is
none of them. -/
structure Nfa.Positional (nfa : Nfa) : Prop where
  separate : Separate nfa.edges
  start : ¬ Entered nfa.edges nfa.start
  symbol : ∀ {s s' t : StateName} {a b : String}, ⟨s, some a, t⟩ ∈ nfa.edges → ⟨s', some b, t⟩ ∈ nfa.edges → a = b

variable {nfa : Nfa} {d : Determinization} {P Q : StateName → Prop} {S S' T T' : StateSet} {s t : StateName}
  {a b : String} {i i' j : Nat}

namespace Nfa

/-! ## Closures -/

theorem Positional.eq_of_path (hpos : nfa.Positional) (ht : Entered nfa.edges t) (hp : nfa.Path s [] t) : s = t := by
  rcases hp.lands_of_entered fun x he => hpos.separate x t he ht with ⟨-, hst⟩ | ⟨u, a, -, h, -⟩
  · exact hst
  · exact absurd h (List.append_ne_nil_of_right_ne_nil u (List.cons_ne_nil a []))

theorem IsClosure.mem_iff_of_entered (hT : nfa.IsClosure P T) (hpos : nfa.Positional) (ht : Entered nfa.edges t) :
    t ∈ T ↔ P t := by
  rw [hT t]
  constructor
  · rintro ⟨s, hs, hp⟩
    exact hpos.eq_of_path ht hp ▸ hs
  · intro h
    exact ⟨t, h, .nil t⟩

theorem Move.entered (h : nfa.Move S a t) : Entered nfa.edges t := by
  obtain ⟨s, -, he⟩ := h
  exact ⟨s, a, he⟩

theorem IsClosure.move_iff (hT : nfa.IsClosure (nfa.Move S a) T) (hpos : nfa.Positional) :
    nfa.Move S a t ↔ t ∈ T ∧ Entered nfa.edges t := by
  constructor
  · intro h
    exact ⟨(hT.mem_iff_of_entered hpos h.entered).2 h, h.entered⟩
  · rintro ⟨ht, hentered⟩
    exact (hT.mem_iff_of_entered hpos hentered).1 ht

theorem IsClosure.start_ne (hstart : nfa.IsClosure (· = nfa.start) S) (hT : nfa.IsClosure (nfa.Move S' a) T)
    (hpos : nfa.Positional) (hne : ∃ t, nfa.Move S' a t) : S ≠ T := by
  rintro rfl
  obtain ⟨t, ht⟩ := hne
  have hmem := (hT.mem_iff_of_entered hpos ht.entered).2 ht
  obtain rfl := (hstart.mem_iff_of_entered hpos ht.entered).1 hmem
  exact hpos.start ht.entered

theorem IsClosure.symbol_eq (hT : nfa.IsClosure (nfa.Move S a) T) (hT' : nfa.IsClosure (nfa.Move S' b) T)
    (hpos : nfa.Positional) (hne : ∃ t, nfa.Move S a t) : a = b := by
  obtain ⟨t, ht⟩ := hne
  obtain ⟨s', -, he'⟩ := (hT'.move_iff hpos).2 ((hT.move_iff hpos).1 ht)
  obtain ⟨s, -, he⟩ := ht
  exact hpos.symbol he he'

end Nfa

/-! ## The deterministic automaton -/

namespace Determinization.Represents

theorem target_ne_start (h : d.Represents nfa) (hpos : nfa.Positional) (hj : d.dfa.target? i a = some j) :
    j ≠ d.dfa.start := by
  obtain ⟨S, hS, hstart⟩ := h.first
  obtain ⟨S', T, -, hT, hne, hclosure⟩ := (h.target i a j).1 hj
  rw [h.start]
  rintro rfl
  exact hstart.start_ne hclosure hpos hne (Option.some.inj (hS.symm.trans hT))

theorem label_eq (h : d.Represents nfa) (hpos : nfa.Positional) (hi : d.dfa.target? i a = some j)
    (hi' : d.dfa.target? i' b = some j) : a = b := by
  obtain ⟨S, T, -, hT, hne, hclosure⟩ := (h.target i a j).1 hi
  obtain ⟨S', T', -, hT', -, hclosure'⟩ := (h.target i' b j).1 hi'
  obtain rfl := Option.some.inj (hT.symm.trans hT')
  exact hclosure.symbol_eq hclosure' hpos hne

theorem exists_move (h : d.Represents nfa) (hid : d.composite? i = some T) (hne : i ≠ 0) :
    ∃ S a, (∃ t, nfa.Move S a t) ∧ nfa.IsClosure (nfa.Move S a) T := by
  cases h.composite hid with
  | start hT =>
      obtain ⟨S, hS, hstart⟩ := h.first
      exact absurd (h.composite_unique hid (hT.unique hstart ▸ hS)) hne
  | move _ hmove hT => exact ⟨_, _, hmove, hT⟩

end Determinization.Represents

/-! ## Counting states -/

/-- The states behind edges with the symbol. -/
def Nfa.endings (nfa : Nfa) (a : String) : Finset StateName :=
  ((nfa.edges.filter (·.label = some a)).map (·.target)).toFinset

theorem Nfa.mem_endings_iff : t ∈ nfa.endings a ↔ ∃ s, ⟨s, some a, t⟩ ∈ nfa.edges := by
  simp only [endings, List.mem_toFinset, List.mem_map, List.mem_filter, decide_eq_true_eq]
  constructor
  · rintro ⟨⟨s, l, u⟩, ⟨he, rfl⟩, rfl⟩
    exact ⟨s, he⟩
  · rintro ⟨s, he⟩
    exact ⟨_, ⟨he, rfl⟩, rfl⟩

/-- The states behind labelled edges that the set holds. -/
def Nfa.entries (nfa : Nfa) (T : StateSet) : Finset StateName :=
  ((nfa.edges.filter (·.label.isSome)).map (·.target)).toFinset.filter (· ∈ T)

theorem Nfa.mem_entries_iff : t ∈ nfa.entries T ↔ t ∈ T ∧ Entered nfa.edges t := by
  simp only [entries, Finset.mem_filter, List.mem_toFinset, List.mem_map, List.mem_filter, Option.isSome_iff_exists,
    and_comm (a := t ∈ T)]
  refine and_congr_left fun _ => ⟨?_, ?_⟩
  · rintro ⟨⟨s, l, u⟩, ⟨he, a, rfl⟩, rfl⟩
    exact ⟨s, a, he⟩
  · rintro ⟨s, a, he⟩
    exact ⟨_, ⟨he, a, rfl⟩, rfl⟩

theorem Nfa.IsClosure.mem_entries_iff (hT : nfa.IsClosure (nfa.Move S a) T) (hpos : nfa.Positional) :
    t ∈ nfa.entries T ↔ nfa.Move S a t := by
  rw [Nfa.mem_entries_iff, hT.move_iff hpos]

theorem Nfa.IsClosure.eq_of_entries_eq (hT : nfa.IsClosure (nfa.Move S a) T)
    (hT' : nfa.IsClosure (nfa.Move S' b) T') (hpos : nfa.Positional) (h : nfa.entries T = nfa.entries T') :
    T = T' := by
  refine hT.unique (hT'.congr fun t => ?_)
  rw [← hT.mem_entries_iff hpos, ← hT'.mem_entries_iff hpos, h]

namespace Determinization.Represents

/-- There is at most one state for the start and one for every symbol and every set of states, not empty, behind edges
with the symbol. -/
theorem size_le (h : d.Represents nfa) (hpos : nfa.Positional) {symbols : Finset String}
    (hsymbols : ∀ s a t, ⟨s, some a, t⟩ ∈ nfa.edges → a ∈ symbols) :
    d.dfa.size ≤ 1 + ∑ a ∈ symbols, (2 ^ (nfa.endings a).card - 1) := by
  -- The states but the start are told apart by the entries of the sets behind them.
  let F (id : Nat) : Finset StateName := nfa.entries ((d.composite? id).getD ∅)
  have hbehind : ∀ id ∈ Finset.Ico 1 d.dfa.size, ∃ S a T, d.composite? id = some T ∧
      (∃ t, nfa.Move S a t) ∧ nfa.IsClosure (nfa.Move S a) T := by
    intro id hid
    obtain ⟨hpositive, hsize⟩ := Finset.mem_Ico.1 hid
    obtain ⟨T, hT⟩ := (h.numbered id).1 hsize
    obtain ⟨S, a, hne, hclosure⟩ := h.exists_move hT (Nat.ne_of_gt hpositive)
    exact ⟨S, a, T, hT, hne, hclosure⟩
  have hmaps : ∀ id ∈ Finset.Ico 1 d.dfa.size,
      F id ∈ symbols.biUnion fun a => (nfa.endings a).powerset.erase ∅ := by
    intro id hid
    obtain ⟨S, a, T, hT, ⟨t, ht⟩, hclosure⟩ := hbehind id hid
    have hF : ∀ x, x ∈ F id ↔ nfa.Move S a x := by
      intro x
      simp only [F, hT, Option.getD_some, hclosure.mem_entries_iff hpos]
    obtain ⟨s, hs, he⟩ := ht
    refine Finset.mem_biUnion.2 ⟨a, hsymbols s a t he, Finset.mem_erase.2 ⟨?_, Finset.mem_powerset.2 ?_⟩⟩
    · exact Finset.ne_empty_of_mem ((hF t).2 ⟨s, hs, he⟩)
    · intro x hx
      obtain ⟨s, -, he⟩ := (hF x).1 hx
      exact Nfa.mem_endings_iff.2 ⟨s, he⟩
  have hinj : Set.InjOn F (Finset.Ico 1 d.dfa.size) := by
    intro id hid id' hid' heq
    obtain ⟨S, a, T, hT, -, hclosure⟩ := hbehind id hid
    obtain ⟨S', b, T', hT', -, hclosure'⟩ := hbehind id' hid'
    simp only [F, hT, hT', Option.getD_some] at heq
    obtain rfl := hclosure.eq_of_entries_eq hclosure' hpos heq
    exact h.composite_unique hT hT'
  calc d.dfa.size ≤ 1 + (Finset.Ico 1 d.dfa.size).card := by
        rw [Nat.card_Ico]
        omega
    _ ≤ 1 + (symbols.biUnion fun a => (nfa.endings a).powerset.erase ∅).card :=
        Nat.add_le_add_left (Finset.card_le_card_of_injOn F hmaps hinj) 1
    _ ≤ 1 + ∑ a ∈ symbols, ((nfa.endings a).powerset.erase ∅).card :=
        Nat.add_le_add_left Finset.card_biUnion_le 1
    _ = 1 + ∑ a ∈ symbols, (2 ^ (nfa.endings a).card - 1) := by
        refine congrArg (1 + ·) (Finset.sum_congr rfl fun a _ => ?_)
        rw [Finset.card_erase_of_mem (Finset.empty_mem_powerset _), Finset.card_powerset]

end Determinization.Represents

/-! ## Expressions -/

namespace Regex

theorem positional_nfaAt (r : Regex) (p : Nat) : (r.nfaAt p).Positional := by
  have hentered : ∀ t, Entered (r.nfaAt p).edges t ↔ Entered (r.edgesAt p) t := fun t => by
    simp only [Entered, mem_edges_nfaAt]
  obtain ⟨hseparate, hstart⟩ := r.not_entered p
  refine ⟨?_, ?_, ?_⟩
  · intro s t he
    rw [hentered]
    exact hseparate s t (mem_edges_nfaAt.1 he)
  · rwa [hentered]
  · intro s s' t a b he he'
    obtain ⟨ha, rfl⟩ := mem_edgesAt_iff.1 (mem_edges_nfaAt.1 he)
    obtain ⟨hb, heq⟩ := mem_edgesAt_iff.1 (mem_edges_nfaAt.1 he')
    obtain rfl := Nat.add_right_cancel heq
    exact symbol_unique ha hb

/-- For each leaf with a symbol there is at most one state behind an edge with it. -/
theorem card_endings_le (r : Regex) (p : Nat) (a : String) :
    ((r.nfaAt p).endings a).card ≤ r.literals.count a := by
  have hsub : (r.nfaAt p).endings a ⊆ (((r.literalsAt p).filter (·.2 == a)).map (·.1 + 1)).toFinset := by
    intro t ht
    obtain ⟨s, he⟩ := Nfa.mem_endings_iff.1 ht
    obtain ⟨hl, rfl⟩ := mem_edgesAt_iff.1 (mem_edges_nfaAt.1 he)
    exact List.mem_toFinset.2 (List.mem_map.2 ⟨(s, a), List.mem_filter.2 ⟨hl, by simp⟩, rfl⟩)
  calc ((r.nfaAt p).endings a).card
      ≤ (((r.literalsAt p).filter (·.2 == a)).map (·.1 + 1)).toFinset.card := Finset.card_le_card hsub
    _ ≤ (((r.literalsAt p).filter (·.2 == a)).map (·.1 + 1)).length := List.toFinset_card_le _
    _ = ((r.literalsAt p).map Prod.snd).count a := by
        rw [List.length_map, ← List.countP_eq_length_filter, List.count, List.countP_map]
        rfl
    _ = r.literals.count a := by rw [r.map_snd_literalsAt]

/-- In the deterministic automaton that an expression is compiled to no edge leads to the start, and edges that lead to
one state have one symbol. -/
theorem determinize_homogeneous (r : Regex) (h : ∀ e, r.compile ≠ .error (.exhausted e)) :
    ∃ nfa d, r.compile = .ok nfa ∧ nfa.determinize = .ok d ∧ (∀ e ∈ d.dfa.edges, e.target ≠ d.dfa.start) ∧
      ∀ e ∈ d.dfa.edges, ∀ e' ∈ d.dfa.edges, e.target = e'.target → e.label = e'.label := by
  obtain ⟨d, hd, hrep⟩ := Nfa.determinize_represents (r.wellFormed_nfaAt 0)
  have hpos := r.positional_nfaAt 0
  refine ⟨_, d, toNfa_of_not_exhausted h, hd, ?_, ?_⟩
  · rintro ⟨i, a, j⟩ he
    exact hrep.target_ne_start hpos (Dfa.mem_edges_iff.1 he)
  · rintro ⟨i, a, j⟩ he ⟨i', b, j'⟩ he' (rfl : j = j')
    exact hrep.label_eq hpos (Dfa.mem_edges_iff.1 he) (Dfa.mem_edges_iff.1 he')

/-- A repetition of a repetition, in which every state can be reached again. -/
theorem determinize_homogeneous_loops :
    let r : Regex := .star (.alt (.pair (.star (.cat (.pair (.lit "a") (.lit "b")))) (.lit "a")))
    (∀ e, r.compile ≠ .error (.exhausted e)) ∧ ∃ nfa d, r.compile = .ok nfa ∧ nfa.determinize = .ok d ∧
      (∀ e ∈ d.dfa.edges, e.target ≠ d.dfa.start) ∧
      ∀ e ∈ d.dfa.edges, ∀ e' ∈ d.dfa.edges, e.target = e'.target → e.label = e'.label := by
  intro r
  have h : ∀ e, r.compile ≠ .error (.exhausted e) := compile_ne_exhausted (by decide)
  exact ⟨h, determinize_homogeneous r h⟩

/-- The deterministic automaton that an expression is compiled to has at most one state for the start and one for every
symbol and every set, not empty, of leaves with this symbol.  If no symbol comes twice there is at most one state for
the start and one for every leaf with a symbol. -/
theorem determinize_size_le (r : Regex) (h : ∀ e, r.compile ≠ .error (.exhausted e)) :
    ∃ nfa d, r.compile = .ok nfa ∧ nfa.determinize = .ok d ∧
      d.dfa.size ≤ 1 + ∑ a ∈ r.literals.toFinset, (2 ^ r.literals.count a - 1) ∧
      (r.literals.Nodup → d.dfa.size ≤ 1 + r.literals.length) := by
  obtain ⟨d, hd, hrep⟩ := Nfa.determinize_represents (r.wellFormed_nfaAt 0)
  have hsymbols : ∀ s a t, ⟨s, some a, t⟩ ∈ (r.nfaAt 0).edges → a ∈ r.literals.toFinset := by
    intro s a t he
    obtain ⟨hl, -⟩ := mem_edgesAt_iff.1 (mem_edges_nfaAt.1 he)
    rw [List.mem_toFinset, ← r.map_snd_literalsAt 0]
    exact List.mem_map_of_mem hl
  have hsize : d.dfa.size ≤ 1 + ∑ a ∈ r.literals.toFinset, (2 ^ r.literals.count a - 1) := by
    refine (hrep.size_le (r.positional_nfaAt 0) hsymbols).trans (Nat.add_le_add_left (Finset.sum_le_sum ?_) 1)
    intro a _
    exact Nat.sub_le_sub_right (Nat.pow_le_pow_right Nat.two_pos (r.card_endings_le 0 a)) 1
  refine ⟨_, d, toNfa_of_not_exhausted h, hd, hsize, ?_⟩
  intro hnodup
  have hone : ∀ a ∈ r.literals.toFinset, 2 ^ r.literals.count a - 1 = 1 := by
    intro a ha
    rw [List.count_eq_one_of_mem hnodup (List.mem_toFinset.1 ha), pow_one]
  rwa [Finset.sum_congr rfl hone, ← Finset.card_eq_sum_ones, List.toFinset_card_of_nodup hnodup] at hsize

/-- Three symbols among repetitions and empty words: fifteen states become four at most. -/
theorem determinize_size_le_distinct :
    let r : Regex := .star (.cat (.pair (Regex.opt (.star (.lit "a"))) (.alt (.pair (.star (.lit "b")) (.lit "")))))
    (∀ e, r.compile ≠ .error (.exhausted e)) ∧ r.literals.Nodup ∧
      ∃ nfa d, r.compile = .ok nfa ∧ nfa.determinize = .ok d ∧ d.dfa.size ≤ 4 := by
  intro r
  have h : ∀ e, r.compile ≠ .error (.exhausted e) := compile_ne_exhausted (by decide)
  have hnodup : r.literals.Nodup := by decide
  obtain ⟨nfa, d, hnfa, hd, -, hsize⟩ := determinize_size_le r h
  exact ⟨h, hnodup, nfa, d, hnfa, hd, hsize hnodup⟩

end Regex

end Automata
