/-
# Taking sets from the queue

The exploration takes one set after the other from its queue, for as long as one is waiting (`Pops`); how many it is
allowed to take does not enter into this.  A set can wait several times.  Taken for the first time it is recorded, and
taken again it is dropped without any other effect (`ResolvesOnce`), so the length of the queue says little about how
much is left to do.

Still the loop ends, and soon.  A set joins the queue only where an edge out of a recorded set leads to it, so no more
sets are taken than the start and one for each edge (`Pops.length_add_le`), and those edges are the edges of the
deterministic automaton.  Of the states of that automaton there are fewer than there are sets of states, since no set
that is met is empty.
-/
import Automata.Proofs.Subset.Order

namespace Automata.Subset

variable {nfa : Nfa} {start S T : StateSet} {e e₁ e' : Exploration} {sets before after rest : List StateSet}

/-- Taking these sets from the queue, one after the other, leads from the one exploration to the other. -/
inductive Pops (nfa : Nfa) : Exploration → List StateSet → Exploration → Prop where
  | nil (e : Exploration) : Pops nfa e [] e
  | cons {e e₁ e' : Exploration} {S : StateSet} {rest sets : List StateSet} : e.pending = S :: rest →
      step nfa e = .ok e₁ → Pops nfa e₁ sets e' → Pops nfa e (S :: sets) e'

/-- What taking a set does when those of `before` were taken before: if it is one of them it leaves the queue and
nothing else changes, and otherwise it is recorded behind the others, with its row. -/
def ResolvesOnce (nfa : Nfa) (before : List StateSet) (S : StateSet) (e e' : Exploration) : Prop :=
  S ∈ before ∧ e' = { e with pending := e.pending.tail } ∨
    S ∉ before ∧ ∃ row, nfa.IsRow S row ∧ e'.resolved.entries = e.resolved.entries ++ [(S, row)]

/-! ## One set -/

theorem Advances.of_mem (h : Advances nfa e e') (hpending : e.pending = S :: rest) (hS : S ∈ e.resolved.keys) :
    e' = { e with pending := rest } := by
  cases h with
  | drop hpending' _ =>
      obtain ⟨rfl, rfl⟩ := List.cons.inj (hpending.symm.trans hpending')
      rfl
  | record hpending' hnew _ =>
      obtain ⟨rfl, rfl⟩ := List.cons.inj (hpending.symm.trans hpending')
      exact absurd hS hnew

theorem Advances.of_not_mem (h : Advances nfa e e') (hpending : e.pending = S :: rest)
    (hS : S ∉ e.resolved.keys) : ∃ row, nfa.IsRow S row ∧ e' = e.record rest S row := by
  cases h with
  | drop hpending' hold =>
      obtain ⟨rfl, rfl⟩ := List.cons.inj (hpending.symm.trans hpending')
      exact absurd hold hS
  | record hpending' _ hrow =>
      obtain ⟨rfl, rfl⟩ := List.cons.inj (hpending.symm.trans hpending')
      exact ⟨_, hrow, rfl⟩

theorem Advances.mem_keys_iff (h : Advances nfa e e') (hpending : e.pending = S :: rest) :
    T ∈ e'.resolved.keys ↔ T ∈ e.resolved.keys ∨ T = S := by
  by_cases hS : S ∈ e.resolved.keys
  · rw [h.of_mem hpending hS]
    exact (or_iff_left_of_imp fun hT => hT ▸ hS).symm
  · obtain ⟨row, -, rfl⟩ := h.of_not_mem hpending hS
    rw [keys_record hS, List.mem_append, List.mem_singleton]

theorem Advances.length_add_le (h : Advances nfa e e') :
    e'.pending.length + 1 + (mentions e.resolved.entries).length
      ≤ e.pending.length + (mentions e'.resolved.entries).length := by
  cases h with
  | drop hpending _ => simp only [hpending, List.length_cons, Nat.le_refl]
  | @record set rest row hpending hS _ =>
      have hnext : (e.record rest set row).pending.length ≤ rest.length + row.length := by
        have hfilter := List.length_filter_le (fun T => !e.resolved.contains T) (row.map Prod.snd)
        rw [List.length_map] at hfilter
        rw [Exploration.record, List.length_append]
        omega
      rw [entries_record hS, mentions_concat, List.length_append, List.length_map, hpending, List.length_cons]
      omega

theorem Explored.advances_of_step (h : Explored nfa start e) (hwf : nfa.WellFormed) (hpending : e.pending = S :: rest)
    (hstep : step nfa e = .ok e') : Advances nfa e e' := by
  have hS : nfa.Composite S := h.composite S (Or.inr (hpending ▸ List.mem_cons_self))
  obtain ⟨_, hstep', hadvances⟩ := step_eq_ok hwf.2.2 h.worklist hpending fun s hs => hS.mem_relation hwf hs
  obtain rfl := Except.ok.inj (hstep.symm.trans hstep')
  exact hadvances

/-! ## One set after the other -/

theorem Pops.split (h : Pops nfa e (before ++ after) e') :
    ∃ e₁, Pops nfa e before e₁ ∧ Pops nfa e₁ after e' := by
  induction before generalizing e with
  | nil => exact ⟨e, .nil e, h⟩
  | cons S before ih =>
      cases h with
      | cons hpending hstep h =>
          obtain ⟨e₁, hbefore, hafter⟩ := ih h
          exact ⟨e₁, .cons hpending hstep hbefore, hafter⟩

theorem Pops.advances (h : Pops nfa e sets e') (hexplored : Explored nfa start e) (hwf : nfa.WellFormed) :
    Relation.ReflTransGen (Advances nfa) e e' := by
  induction h with
  | nil _ => exact .refl
  | cons hpending hstep _ ih =>
      have hadvances := hexplored.advances_of_step hwf hpending hstep
      exact (ih (hexplored.advances hadvances)).head hadvances

theorem Pops.explored (h : Pops nfa e sets e') (hexplored : Explored nfa start e) (hwf : nfa.WellFormed) :
    Explored nfa start e' :=
  hexplored.reaches (h.advances hexplored hwf)

theorem Pops.mem_keys_iff (h : Pops nfa e sets e') (hexplored : Explored nfa start e) (hwf : nfa.WellFormed) :
    T ∈ e'.resolved.keys ↔ T ∈ e.resolved.keys ∨ T ∈ sets := by
  induction h with
  | nil _ => simp
  | cons hpending hstep _ ih =>
      have hadvances := hexplored.advances_of_step hwf hpending hstep
      rw [ih (hexplored.advances hadvances), hadvances.mem_keys_iff hpending, List.mem_cons, or_assoc]

/-- Sets taken and sets waiting are no more than those waiting at first and one for each edge found since. -/
theorem Pops.length_add_le (h : Pops nfa e sets e') (hexplored : Explored nfa start e) (hwf : nfa.WellFormed) :
    sets.length + e'.pending.length + (mentions e.resolved.entries).length
      ≤ e.pending.length + (mentions e'.resolved.entries).length := by
  induction h with
  | nil _ => simp
  | cons hpending hstep _ ih =>
      have hadvances := hexplored.advances_of_step hwf hpending hstep
      have hle := hadvances.length_add_le
      have hrest := ih (hexplored.advances hadvances)
      rw [List.length_cons]
      omega

/-- In the exploration from the start every set is recorded when it is taken first, and only then. -/
theorem Pops.resolvesOnce (h : Pops nfa (.begin start) (before ++ S :: after) e')
    (hstart : nfa.IsClosure (· = nfa.start) start) (hwf : nfa.WellFormed) : ∃ e₁ e₂,
      Pops nfa (.begin start) before e₁ ∧ step nfa e₁ = .ok e₂ ∧ Pops nfa e₂ after e' ∧
        ResolvesOnce nfa before S e₁ e₂ := by
  have hbegin := explored_begin hstart
  obtain ⟨e₁, hbefore, hafter⟩ := h.split
  cases hafter with
  | cons hpending hstep hafter =>
      refine ⟨e₁, _, hbefore, hstep, hafter, ?_⟩
      have hadvances := (hbefore.explored hbegin hwf).advances_of_step hwf hpending hstep
      have hmem : S ∈ e₁.resolved.keys ↔ S ∈ before := by
        rw [hbefore.mem_keys_iff hbegin hwf]
        exact or_iff_right List.not_mem_nil
      by_cases hS : S ∈ before
      · refine Or.inl ⟨hS, ?_⟩
        rw [hpending]
        exact hadvances.of_mem hpending (hmem.2 hS)
      · obtain ⟨row, hrow, rfl⟩ := hadvances.of_not_mem hpending fun h => hS (hmem.1 h)
        exact Or.inr ⟨hS, row, hrow, entries_record fun h => hS (hmem.1 h)⟩

/-! ## The bounded loop -/

theorem exists_pops {pops : Nat} (h : explore nfa pops e = .ok e') : ∃ sets, Pops nfa e sets e' := by
  induction pops generalizing e with
  | zero =>
      obtain rfl := Except.ok.inj h
      exact ⟨[], .nil e⟩
  | succ pops ih =>
      cases hpending : e.pending with
      | nil =>
          simp only [explore, hpending] at h
          obtain rfl := Except.ok.inj h
          exact ⟨[], .nil e⟩
      | cons S rest =>
          cases hstep : step nfa e with
          | error fault =>
              simp only [explore, hpending, hstep] at h
              cases h
          | ok e₁ =>
              simp only [explore, hpending, hstep] at h
              obtain ⟨sets, hsets⟩ := ih h
              exact ⟨S :: sets, .cons hpending hstep hsets⟩

/-- Any bound that allows all sets to be taken gives the same. -/
theorem Pops.explore_eq_ok (h : Pops nfa e sets e') (hpending : e'.pending = []) {pops : Nat}
    (hpops : sets.length ≤ pops) : explore nfa pops e = .ok e' := by
  induction h generalizing pops with
  | nil e => cases pops <;> simp only [explore, hpending]
  | cons hhead hstep _ ih =>
      obtain ⟨pops, rfl⟩ := Nat.exists_eq_add_of_lt (Nat.zero_lt_of_lt hpops)
      simp only [explore, hhead, hstep, Nat.zero_add]
      exact ih hpending (by simpa using hpops)

/-! ## Edges and states of the deterministic automaton -/

variable {d : Determinization}

theorem Follows.length_mentions_le (h : Follows nfa e d) (hexplored : Explored nfa start e)
    (hpending : e.pending = []) : (mentions e.resolved.entries).length ≤ d.dfa.edges.length := by
  have hnodup : ((mentions e.resolved.entries).map Prod.fst).Nodup := by
    have hordered := pairwise_mentions fun p hp => (hexplored.row p.1 p.2 hp).ascending
    refine List.pairwise_map.2 (hordered.imp ?_)
    rintro ⟨⟨i, a⟩, T⟩ ⟨⟨j, b⟩, U⟩ hlt heq
    obtain ⟨rfl, rfl⟩ := Prod.mk.inj heq
    rcases hlt with hlt | ⟨-, hlt⟩
    · exact Nat.lt_irrefl _ hlt
    · exact String.lt_irrefl _ hlt
  have hedges : (mentions e.resolved.entries).map Prod.fst ⊆ d.dfa.edges.map fun x => (x.source, x.label) := by
    intro p hp
    obtain ⟨⟨⟨i, a⟩, T⟩, hmention, rfl⟩ := List.mem_map.1 hp
    obtain ⟨S, row, hentry, hrow⟩ := mem_mentions_iff.1 hmention
    have hT := hexplored.covered S row (List.mem_of_getElem? hentry) a T hrow
    rw [hpending] at hT
    obtain ⟨j, hj⟩ := List.mem_iff_getElem?.1 (hT.resolve_right List.not_mem_nil)
    have htarget := (h.numbers.target i a j).2 ⟨S, row, T, hentry, hrow, hj⟩
    exact List.mem_map.2 ⟨⟨i, a, j⟩, Dfa.mem_edges_iff.2 htarget, rfl⟩
  have hlength := (hnodup.subperm hedges).length_le
  rwa [List.length_map, List.length_map] at hlength

theorem Follows.size_lt (h : Follows nfa e d) (hexplored : Explored nfa start e) (hwf : nfa.WellFormed) :
    d.dfa.size < 2 ^ nfa.size := by
  have hempty : ∅ ∉ e.resolved.keys := by
    intro hmem
    obtain ⟨s, hs⟩ := (hexplored.composite ∅ (Or.inl hmem)).nonempty
    exact Std.ExtTreeSet.not_mem_empty hs
  rw [h.size_eq]
  refine length_le_of_nodup (List.nodup_cons.2 ⟨hempty, e.resolved.nodup_keys⟩) ?_
  intro S hS s hs
  rcases List.mem_cons.1 hS with rfl | hS
  · exact absurd hs Std.ExtTreeSet.not_mem_empty
  · exact (hexplored.composite S (Or.inl hS)).mem_relation hwf hs

end Automata.Subset

namespace Automata.Nfa

open Subset

/-- The exploration of a well-formed automaton comes to an end, however many sets it is allowed to take.  It has then
taken the sets behind the states of the deterministic automaton and no others, each of them for the first time once,
which recorded it, and after that without any effect but on the head of the queue.  None of them is empty, so there are
fewer than `2 ^ n` of them for `n` states, and it has taken no more sets than the start and one for each edge. -/
theorem determinize_terminates (nfa : Nfa) (hwf : nfa.WellFormed) : ∃ d start e sets,
    nfa.determinize = .ok d ∧ exploreAll nfa = .ok (start, e) ∧
    Pops nfa (.begin start) sets e ∧ e.pending = [] ∧
    (∀ pops, sets.length ≤ pops → explore nfa pops (.begin start) = .ok e) ∧
    (∀ before S after, sets = before ++ S :: after → ∃ e₁ e₂, Pops nfa (.begin start) before e₁ ∧
      step nfa e₁ = .ok e₂ ∧ Pops nfa e₂ after e ∧ ResolvesOnce nfa before S e₁ e₂) ∧
    (∀ S, S ∈ sets ↔ ∃ id, d.composite? id = some S) ∧ (∀ S ∈ sets, ∃ s, s ∈ S) ∧
    sets.length ≤ 1 + d.dfa.edges.length ∧ d.dfa.size ≤ 2 ^ nfa.size - 1 := by
  obtain ⟨start, e, hexploreAll, hexplore, hstart, hsteps, hpending⟩ := exploreAll_eq_ok hwf
  have hbegin := explored_begin hstart
  have hexplored := hbegin.reaches hsteps
  obtain ⟨d, hd, hfollows, -⟩ := determinize_follows hexploreAll hexplored hpending
  obtain ⟨sets, hpops⟩ := exists_pops hexplore
  have hkeys : ∀ S, S ∈ e.resolved.keys ↔ S ∈ sets := by
    intro S
    rw [hpops.mem_keys_iff hbegin hwf]
    exact or_iff_right List.not_mem_nil
  have hlength : sets.length ≤ 1 + d.dfa.edges.length := by
    have htaken := hpops.length_add_le hbegin hwf
    have hedges := hfollows.length_mentions_le hexplored hpending
    have hwaiting : (Exploration.begin start).pending.length = 1 := rfl
    omega
  refine ⟨d, start, e, sets, hd, hexploreAll, hpops, hpending, fun pops => hpops.explore_eq_ok hpending, ?_, ?_, ?_,
    hlength, Nat.le_sub_one_of_lt (hfollows.size_lt hexplored hwf)⟩
  · rintro before S after rfl
    exact hpops.resolvesOnce hstart hwf
  · intro S
    rw [← hkeys, List.mem_iff_getElem?]
    exact exists_congr fun id => by rw [hfollows.composite]
  · intro S hS
    exact (hexplored.composite S (Or.inl ((hkeys S).2 hS))).nonempty

/-- Two symbols lead to one set, which then waits twice, and back from there to the start. -/
theorem determinize_terminates_waiting_twice :
    let lists : List (StateName × List Transition) :=
      [(1, [⟨some "a", 2⟩, ⟨some "b", 2⟩, ⟨some "b", 3⟩]), (2, [⟨none, 3⟩, ⟨some "a", 1⟩]), (3, [⟨none, 2⟩])]
    let nfa : Nfa := ⟨1, 3, .ofList lists⟩
    nfa.WellFormed ∧ ∃ d start e sets, nfa.determinize = .ok d ∧ exploreAll nfa = .ok (start, e) ∧
      Pops nfa (.begin start) sets e ∧ e.pending = [] ∧ (∀ S, S ∈ sets ↔ ∃ id, d.composite? id = some S) ∧
      sets.length ≤ 1 + d.dfa.edges.length ∧ d.dfa.size ≤ 2 ^ nfa.size - 1 := by
  intro lists nfa
  have hwf : nfa.WellFormed := by decide
  obtain ⟨d, start, e, sets, hd, hexplore, hpops, hpending, -, -, hsets, -, hlength, hsize⟩ :=
    determinize_terminates nfa hwf
  exact ⟨hwf, d, start, e, sets, hd, hexplore, hpops, hpending, hsets, hlength, hsize⟩

end Automata.Nfa
