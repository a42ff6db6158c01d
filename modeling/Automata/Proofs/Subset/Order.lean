/-
# The order in which sets are recorded

The edges out of the recorded sets mention sets, one after the other: by the place of the set that the edge leaves,
then by symbol (`mentions`).  The exploration records the start and after it, each time, the set that is mentioned
first of those not recorded yet (`InOrder.recorded`).

It does so although a set may wait several times and is recorded when it comes up, not when it is mentioned.  For what
is waiting is just what has been mentioned, in the same order, but for sets recorded in the meantime
(`InOrder.waiting`), and a set recorded already is dropped when it comes up.

Numbering the sets in this order numbers the states breadth first, so the numbers follow the access words of the
states (`Nfa.determinize_lt_iff_precedes`) and depend on nothing but the words the automaton reads.
-/
import Automata.Proofs.Dfa.Canonical
import Automata.Proofs.Subset.Structure

namespace Automata.Subset

variable {nfa : Nfa} {start S T : StateSet} {e e' : Exploration} {row : CompositeRow}
  {resolved : Roster StateSet CompositeRow}

/-! ## Mentions -/

/-- The sets that the edges out of recorded sets lead to, each with the place of the set left and the symbol. -/
def mentions (entries : List (StateSet × CompositeRow)) : List ((Nat × String) × StateSet) :=
  entries.zipIdx.flatMap fun entry => entry.1.2.map fun p => ((entry.2, p.1), p.2)

theorem mem_mentions_iff {entries : List (StateSet × CompositeRow)} {i : Nat} {a : String} :
    ((i, a), T) ∈ mentions entries ↔ ∃ S row, entries[i]? = some (S, row) ∧ (a, T) ∈ row := by
  simp only [mentions, List.mem_flatMap, List.mem_map]
  constructor
  · rintro ⟨⟨⟨S, row⟩, j⟩, hentry, ⟨b, U⟩, hp, heq⟩
    obtain ⟨h, rfl⟩ := Prod.mk.inj heq
    obtain ⟨rfl, rfl⟩ := Prod.mk.inj h
    exact ⟨S, row, List.mk_mem_zipIdx_iff_getElem?.1 hentry, hp⟩
  · rintro ⟨S, row, hentry, hp⟩
    exact ⟨((S, row), i), List.mk_mem_zipIdx_iff_getElem?.2 hentry, (a, T), hp, rfl⟩

theorem mentions_concat (entries : List (StateSet × CompositeRow)) (S : StateSet) (row : CompositeRow) :
    mentions (entries ++ [(S, row)])
      = mentions entries ++ row.map fun p => ((entries.length, p.1), p.2) := by
  simp [mentions, List.zipIdx_append]

theorem pairwise_mentions {entries : List (StateSet × CompositeRow)}
    (h : ∀ p ∈ entries, p.2.Pairwise fun x y => compare x.1 y.1 = .lt) :
    (mentions entries).Pairwise fun m m' => m.1.1 < m'.1.1 ∨ m.1.1 = m'.1.1 ∧ m.1.2 < m'.1.2 := by
  refine List.pairwise_flatMap.2 ⟨?_, ?_⟩
  · rintro ⟨entry, i⟩ hentry
    refine List.pairwise_map.2 ?_
    exact (h _ (List.fst_mem_of_mem_zipIdx hentry)).imp fun hlt => Or.inr ⟨rfl, compareOfLessAndEq_eq_lt.1 hlt⟩
  · have hplaces : (entries.zipIdx.map Prod.snd).Pairwise (· < ·) := by
      rw [List.zipIdx_map_snd]
      exact List.pairwise_lt_range'
    refine (List.pairwise_map.1 hplaces).imp ?_
    intro x y hxy m hm m' hm'
    obtain ⟨_, -, rfl⟩ := List.mem_map.1 hm
    obtain ⟨_, -, rfl⟩ := List.mem_map.1 hm'
    exact Or.inl hxy

theorem mem_before_or_le {entries : List (StateSet × CompositeRow)}
    (h : ∀ p ∈ entries, p.2.Pairwise fun x y => compare x.1 y.1 = .lt)
    {before after : List ((Nat × String) × StateSet)} {i i' : Nat} {a b : String}
    (hmentions : mentions entries = before ++ ((i, a), S) :: after) (hmem : ((i', b), T) ∈ mentions entries) :
    ((i', b), T) ∈ before ∨ i < i' ∨ i = i' ∧ (a = b ∨ a < b) := by
  have hpairwise := pairwise_mentions h
  rw [hmentions] at hpairwise hmem
  rcases List.mem_append.1 hmem with hbefore | hmem
  · exact Or.inl hbefore
  rcases List.mem_cons.1 hmem with heq | hafter
  · cases heq
    exact Or.inr (Or.inr ⟨rfl, Or.inl rfl⟩)
  · have hlater := List.rel_of_pairwise_cons (List.pairwise_append.1 hpairwise).2.1 hafter
    exact Or.inr (hlater.imp_right fun h => ⟨h.1, Or.inr h.2⟩)

/-! ## Sets not yet recorded -/

/-- Those of the sets that are not recorded. -/
def missing (resolved : Roster StateSet CompositeRow) (sets : List StateSet) : List StateSet :=
  sets.filter fun T => !resolved.contains T

theorem missing_append (sets sets' : List StateSet) :
    missing resolved (sets ++ sets') = missing resolved sets ++ missing resolved sets' :=
  List.filter_append _ _

theorem missing_cons (hS : S ∉ resolved.keys) (sets : List StateSet) :
    missing resolved (S :: sets) = S :: missing resolved sets := by
  rw [← Roster.contains_iff] at hS
  simp [missing, hS]

theorem missing_cons_of_mem (hS : S ∈ resolved.keys) (sets : List StateSet) :
    missing resolved (S :: sets) = missing resolved sets := by
  rw [← Roster.contains_iff] at hS
  simp [missing, hS]

theorem missing_insert (hS : S ∉ resolved.keys) (sets : List StateSet) :
    missing (resolved.insert S row) sets = (missing resolved sets).filter fun T => T ≠ S := by
  rw [missing, missing, List.filter_filter]
  refine List.filter_congr ?_
  intro T _
  have hmem : (resolved.insert S row).contains T ↔ resolved.contains T ∨ T = S := by
    rw [Roster.contains_iff, Roster.contains_iff, Roster.keys_insert_of_not_mem row hS, List.mem_append,
      List.mem_singleton]
  rw [Bool.eq_iff_iff]
  simp [← Bool.not_eq_true, hmem, and_comm]

theorem missing_missing (sets : List StateSet) : missing resolved (missing resolved sets) = missing resolved sets := by
  simp [missing]

/-! ## The invariant -/

/-- The sets mentioned and not yet recorded are waiting in the order in which they were mentioned, and each set but
the start was the first of those mentioned and not yet recorded when it was recorded. -/
structure InOrder (start : StateSet) (e : Exploration) : Prop where
  waiting : missing e.resolved (start :: (mentions e.resolved.entries).map Prod.snd)
    = missing e.resolved e.pending
  recorded : ∀ j T, e.resolved.keys[j]? = some T → T = start ∨ ∃ before i a after,
    mentions (e.resolved.entries.take j) = before ++ ((i, a), T) :: after ∧
      ∀ m ∈ before, m.2 ∈ e.resolved.keys.take j

theorem inOrder_begin (start : StateSet) : InOrder start (.begin start) where
  waiting := rfl
  recorded _ _ h := by cases h

theorem InOrder.drop (h : InOrder start e) {rest : List StateSet} (hpending : e.pending = S :: rest)
    (hS : S ∈ e.resolved.keys) : InOrder start { e with pending := rest } where
  waiting := by
    rw [h.waiting, hpending, missing_cons_of_mem hS]
  recorded := h.recorded

/-- The set that comes up is the start, or it is mentioned and all that is mentioned before it is recorded. -/
theorem InOrder.next (h : InOrder start e) {rest : List StateSet} (hpending : e.pending = S :: rest)
    (hS : S ∉ e.resolved.keys) : S = start ∨ ∃ before i a after,
      mentions e.resolved.entries = before ++ ((i, a), S) :: after ∧ ∀ m ∈ before, m.2 ∈ e.resolved.keys := by
  have hwaiting := h.waiting
  rw [hpending, missing_cons hS] at hwaiting
  -- What waits first is the first of the start and the mentions that is not recorded.
  obtain ⟨before, after, hsplit, hbefore, -, -⟩ := List.filter_eq_cons_iff.1 hwaiting
  cases before with
  | nil => exact Or.inl (List.cons.inj hsplit).1.symm
  | cons first before =>
      obtain ⟨-, hsplit⟩ := List.cons.inj hsplit
      obtain ⟨before, rest, hmentions, rfl, hrest⟩ := List.map_eq_append_iff.1 hsplit
      obtain ⟨⟨⟨i, a⟩, T⟩, after, rfl, rfl, -⟩ := List.map_eq_cons_iff.1 hrest
      refine Or.inr ⟨before, i, a, after, hmentions, ?_⟩
      intro m hm
      have hrecorded := hbefore m.2 (List.mem_cons_of_mem _ (List.mem_map_of_mem hm))
      rwa [Bool.not_eq_true', Bool.not_eq_false, Roster.contains_iff] at hrecorded

theorem InOrder.record (h : InOrder start e) {rest : List StateSet} (hpending : e.pending = S :: rest)
    (hS : S ∉ e.resolved.keys) : InOrder start (e.record rest S row) where
  waiting := by
    have hmentions : (mentions (e.record rest S row).resolved.entries).map Prod.snd
        = (mentions e.resolved.entries).map Prod.snd ++ row.map Prod.snd := by
      rw [entries_record hS, mentions_concat, List.map_append, List.map_map]
      rfl
    have hpending' : (e.record rest S row).pending = rest ++ missing e.resolved (row.map Prod.snd) := rfl
    have hresolved : (e.record rest S row).resolved = e.resolved.insert S row := rfl
    rw [hmentions, hpending', hresolved, ← List.cons_append, missing_append, missing_append, missing_insert hS,
      missing_insert hS (row.map _), h.waiting, hpending, missing_insert hS, missing_insert hS, missing_missing,
      missing_cons hS]
    simp
  recorded := by
    intro j T hj
    have hlength : e.resolved.entries.length = e.resolved.keys.length := by rw [Roster.keys, List.length_map]
    rw [keys_record hS] at hj ⊢
    rw [entries_record hS]
    rcases Nat.lt_or_ge j e.resolved.keys.length with hlt | hge
    · rw [List.getElem?_append_left hlt] at hj
      rw [List.take_append_of_le_length (by omega), List.take_append_of_le_length (Nat.le_of_lt hlt)]
      exact h.recorded j T hj
    · rw [List.getElem?_append_right hge, List.getElem?_singleton, Option.ite_none_right_eq_some] at hj
      obtain rfl : j = e.resolved.keys.length := by omega
      obtain rfl := Option.some.inj hj.2
      rw [← hlength, List.take_left, hlength, List.take_left]
      exact h.next hpending hS

theorem InOrder.advances (h : InOrder start e) (hstep : Advances nfa e e') : InOrder start e' := by
  cases hstep with
  | drop hpending hS => exact h.drop hpending hS
  | record hpending hS _ => exact h.record hpending hS

theorem InOrder.reaches (h : InOrder start e) (hsteps : Relation.ReflTransGen (Advances nfa) e e') :
    InOrder start e' := by
  induction hsteps with
  | refl => exact h
  | tail _ hstep ih => exact ih.advances hstep

/-! ## Numbers -/

variable {d : Determinization}

/-- Numbering the sets in the order in which they were recorded is numbering breadth first. -/
theorem Follows.breadthFirst (h : Follows nfa e d) (hexplored : Explored nfa start e) (horder : InOrder start e)
    (hpending : e.pending = []) (hrep : d.Represents nfa) : d.dfa.BreadthFirst := by
  have hzero := hexplored.getElem?_keys_zero hpending
  refine ⟨h.wellFormed hexplored hpending, h.start, hrep.states, ?_⟩
  intro j hj hne
  obtain ⟨T, hT⟩ := (hrep.numbered j).1 hj
  rw [h.composite] at hT
  have hrows : ∀ p ∈ e.resolved.entries.take j, p.2.Pairwise fun x y => compare x.1 y.1 = .lt :=
    fun p hp => (hexplored.row p.1 p.2 (List.mem_of_mem_take hp)).ascending
  rcases horder.recorded j T hT with rfl | ⟨before, i, a, after, hmentions, hbefore⟩
  · exact absurd (Roster.place_unique hT hzero) hne
  · have hmem : ((i, a), T) ∈ mentions (e.resolved.entries.take j) := by simp [hmentions]
    obtain ⟨S, row, hentry, hrow⟩ := mem_mentions_iff.1 hmem
    rw [List.getElem?_take, Option.ite_none_right_eq_some] at hentry
    obtain ⟨hij, hentry⟩ := hentry
    refine ⟨i, a, hij, (h.numbers.target i a j).2 ⟨S, row, T, hentry, hrow, hT⟩, ?_⟩
    intro i' b k htarget hjk
    obtain ⟨S', row', U, hentry', hrow', hU⟩ := (h.numbers.target i' b k).1 htarget
    by_cases hlt : i < i'
    · exact Or.inl hlt
    · have hmem' : ((i', b), U) ∈ mentions (e.resolved.entries.take j) :=
        mem_mentions_iff.2 ⟨S', row', by rw [List.getElem?_take_of_lt (by omega), hentry'], hrow'⟩
      rcases mem_before_or_le hrows hmentions hmem' with hmem' | hle
      · -- What is mentioned before is recorded before `j`, so it is not the set with the number `k`.
        obtain ⟨k', hk'⟩ := List.mem_iff_getElem?.1 (hbefore _ hmem')
        rw [List.getElem?_take, Option.ite_none_right_eq_some] at hk'
        obtain rfl := Roster.place_unique hk'.2 hU
        exact absurd hk'.1 (Nat.not_lt_of_le hjk)
      · exact hle

end Automata.Subset

namespace Automata.Nfa

open Subset

variable {nfa : Nfa}

theorem determinize_breadthFirst (hwf : nfa.WellFormed) :
    ∃ d, nfa.determinize = .ok d ∧ d.Represents nfa ∧ d.dfa.BreadthFirst := by
  obtain ⟨d, start, e, hd, hfollows, hstart, hsteps, hpending⟩ := determinize_follows_exploration hwf
  have hexplored := (explored_begin hstart).reaches hsteps
  have horder := (inOrder_begin start).reaches hsteps
  have hrep := hfollows.represents hexplored hpending hstart
  exact ⟨d, hd, hrep, hfollows.breadthFirst hexplored horder hpending hrep⟩

/-- The deterministic automaton of a well-formed one has one least word for each of its states among those that end
there, and of two states the one with the smaller number has the word that comes first in shortlex order. -/
theorem determinize_lt_iff_precedes (nfa : Nfa) (hwf : nfa.WellFormed) : ∃ d, nfa.determinize = .ok d ∧
    (∀ id ∈ d.dfa.states, ∃! w, d.dfa.Access w id) ∧
    ∀ i j u v, d.dfa.Access u i → d.dfa.Access v j → (i < j ↔ Precedes u v) := by
  obtain ⟨d, hd, -, h⟩ := determinize_breadthFirst hwf
  refine ⟨d, hd, ?_, fun i j u v hu hv => h.lt_iff_precedes hu hv⟩
  intro id hid
  rw [h.states, List.mem_range] at hid
  obtain ⟨w, hw⟩ := h.exists_access hid
  exact ⟨w, hw, fun v hv => hv.unique hw⟩

/-- Symbols that are recorded in another order than they come in the lists, one set reached by several words, and an
epsilon cycle. -/
theorem determinize_lt_iff_precedes_symbols :
    let lists : List (StateName × List Transition) :=
      [(1, [⟨some "b", 4⟩, ⟨some "", 9⟩, ⟨some "aa", 4⟩]), (4, [⟨none, 9⟩, ⟨some "b", 1⟩, ⟨some "b", 1⟩]),
        (9, [⟨none, 4⟩, ⟨some "a", 9⟩, ⟨some "é", 1⟩])]
    let nfa : Nfa := ⟨1, 4, .ofList lists⟩
    nfa.WellFormed ∧ ∃ d, nfa.determinize = .ok d ∧ (∀ id ∈ d.dfa.states, ∃! w, d.dfa.Access w id) ∧
      ∀ i j u v, d.dfa.Access u i → d.dfa.Access v j → (i < j ↔ Precedes u v) := by
  intro lists nfa
  have hwf : nfa.WellFormed := by decide
  exact ⟨hwf, determinize_lt_iff_precedes nfa hwf⟩

end Automata.Nfa
