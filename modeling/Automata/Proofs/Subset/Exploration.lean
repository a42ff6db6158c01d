/-
# The exploration finds the composite states

One step of the exploration either drops a set that has been recorded already or records one with its row
(`Advances`, with `step_eq_ok`); everything about whole explorations is an invariant of these two moves.  The one
needed most, `Explored`, says that only composite states are recorded or waiting, with their rows, and that no edge
out of a recorded set is forgotten.  When nothing is waiting any more, the recorded sets are the composite states
(`Explored.mem_keys_iff`).

That the queue does run empty is again a matter of counting: a set of states is recorded once, and there are no more
than `2 ^ n` sets of `n` states, none with more edges than the automaton has.
-/
import Mathlib.Data.List.Sublists
import Mathlib.Logic.Relation
import Automata.Proofs.Subset.Composite

namespace Automata.Subset

variable {nfa : Nfa} {start S : StateSet} {e e' : Exploration} {row : CompositeRow}

/-! ## One step -/

/-- The exploration after a set was taken from the queue and recorded with its row. -/
def Exploration.record (e : Exploration) (rest : List StateSet) (set : StateSet) (row : CompositeRow) :
    Exploration where
  worklist := e.worklist
  interned := e.interned.insertMany (row.map Prod.snd)
  resolved := e.resolved.insert set row
  pending := rest ++ (row.map Prod.snd).filter fun t => !e.resolved.contains t
  log := e.log.push (.resolved set row)

/-- What a step with something waiting can do. -/
inductive Advances (nfa : Nfa) : Exploration → Exploration → Prop where
  | drop {e : Exploration} {set : StateSet} {rest : List StateSet} : e.pending = set :: rest →
      set ∈ e.resolved.keys → Advances nfa e { e with pending := rest }
  | record {e : Exploration} {set : StateSet} {rest : List StateSet} {row : CompositeRow} :
      e.pending = set :: rest → set ∉ e.resolved.keys → nfa.IsRow set row →
      Advances nfa e (e.record rest set row)

theorem keys_record {rest : List StateSet} (hS : S ∉ e.resolved.keys) :
    (e.record rest S row).resolved.keys = e.resolved.keys ++ [S] :=
  Roster.keys_insert_of_not_mem row hS

theorem entries_record {rest : List StateSet} (hS : S ∉ e.resolved.keys) :
    (e.record rest S row).resolved.entries = e.resolved.entries ++ [(S, row)] :=
  Roster.entries_insert_of_not_mem row hS

theorem step_eq_ok (hclosed : ∀ e ∈ nfa.edges, e.target ∈ nfa.relation) (he : e.worklist = [])
    {rest : List StateSet} (hpending : e.pending = S :: rest) (hS : ∀ s ∈ S, s ∈ nfa.relation) :
    ∃ e', step nfa e = .ok e' ∧ Advances nfa e e' := by
  by_cases hmem : S ∈ e.resolved.keys
  · refine ⟨_, ?_, .drop hpending hmem⟩
    simp only [step, hpending, Roster.contains_iff.2 hmem, if_true]
  · have hnot : ¬ e.resolved.contains S = true := fun h => hmem (Roster.contains_iff.1 h)
    obtain ⟨m, row, hm, hrow, hisRow⟩ := exists_row (e := { e with pending := rest }) hclosed he hS
    refine ⟨_, ?_, .record hpending hmem hisRow⟩
    simp only [step, hpending, hnot, resolve, hm, hrow, bind, Except.bind]
    rfl

/-! ## The invariant -/

/-- Whatever is recorded or waiting is a composite state, the start comes first, and every edge out of a recorded
set leads to one that is recorded or waiting. -/
structure Explored (nfa : Nfa) (start : StateSet) (e : Exploration) : Prop where
  worklist : e.worklist = []
  composite : ∀ S, S ∈ e.resolved.keys ∨ S ∈ e.pending → nfa.Composite S
  row : ∀ S row, (S, row) ∈ e.resolved.entries → nfa.IsRow S row
  covered : ∀ S row, (S, row) ∈ e.resolved.entries → ∀ a T, (a, T) ∈ row →
    T ∈ e.resolved.keys ∨ T ∈ e.pending
  first : (e.resolved.keys ++ e.pending).head? = some start

theorem Explored.drop (h : Explored nfa start e) {rest : List StateSet} (hpending : e.pending = S :: rest)
    (hS : S ∈ e.resolved.keys) : Explored nfa start { e with pending := rest } where
  worklist := h.worklist
  composite := by
    intro T hT
    exact h.composite T (hT.imp_right fun hT => hpending ▸ List.mem_cons_of_mem S hT)
  row := h.row
  covered := by
    intro U row hU a T hT
    rcases h.covered U row hU a T hT with hT | hT
    · exact Or.inl hT
    · rw [hpending] at hT
      rcases List.mem_cons.1 hT with rfl | hT
      · exact Or.inl hS
      · exact Or.inr hT
  first := by
    have hfirst := h.first
    have hne := List.ne_nil_of_mem hS
    rw [List.head?_append_of_ne_nil _ hne] at hfirst ⊢
    exact hfirst

theorem Explored.record (h : Explored nfa start e) {rest : List StateSet} (hpending : e.pending = S :: rest)
    (hS : S ∉ e.resolved.keys) (hrow : nfa.IsRow S row) : Explored nfa start (e.record rest S row) where
  worklist := h.worklist
  composite := by
    have hcomposite : nfa.Composite S := h.composite S (Or.inr (hpending ▸ List.mem_cons_self))
    intro T hT
    rw [keys_record hS, List.mem_append, List.mem_singleton] at hT
    rcases hT with (hT | rfl) | hT
    · exact h.composite T (Or.inl hT)
    · exact hcomposite
    · rcases List.mem_append.1 hT with hT | hT
      · exact h.composite T (Or.inr (hpending ▸ List.mem_cons_of_mem S hT))
      · obtain ⟨⟨a, U⟩, hU, rfl⟩ := List.mem_map.1 (List.mem_filter.1 hT).1
        obtain ⟨hne, hclosure⟩ := (hrow.mem a U).1 hU
        exact .move hcomposite hne hclosure
  row := by
    intro U row' hU
    rw [entries_record hS, List.mem_append, List.mem_singleton] at hU
    rcases hU with hU | hU
    · exact h.row U row' hU
    · obtain ⟨rfl, rfl⟩ := Prod.mk.inj hU
      exact hrow
  covered := by
    intro U row' hU a T hT
    rw [entries_record hS, List.mem_append, List.mem_singleton] at hU
    rw [keys_record hS, List.mem_append, List.mem_singleton]
    rcases hU with hU | hU
    · -- What was waiting is still waiting, but for the set that is recorded now.
      rcases h.covered U row' hU a T hT with hT | hT
      · exact Or.inl (Or.inl hT)
      · rw [hpending] at hT
        rcases List.mem_cons.1 hT with rfl | hT
        · exact Or.inl (Or.inr rfl)
        · exact Or.inr (List.mem_append_left _ hT)
    · obtain ⟨rfl, rfl⟩ := Prod.mk.inj hU
      by_cases hknown : T ∈ e.resolved.keys
      · exact Or.inl (Or.inl hknown)
      · refine Or.inr (List.mem_append_right _ (List.mem_filter.2 ⟨List.mem_map.2 ⟨_, hT, rfl⟩, ?_⟩))
        rw [Bool.not_eq_true', ← Bool.not_eq_true, Roster.contains_iff]
        exact hknown
  first := by
    have hfirst := h.first
    rw [hpending, List.head?_append] at hfirst
    rw [keys_record hS, List.append_assoc, List.head?_append]
    exact hfirst

theorem Explored.advances (h : Explored nfa start e) (hstep : Advances nfa e e') :
    Explored nfa start e' := by
  cases hstep with
  | drop hpending hS => exact h.drop hpending hS
  | record hpending hS hrow => exact h.record hpending hS hrow

theorem Explored.reaches (h : Explored nfa start e)
    (hsteps : Relation.ReflTransGen (Advances nfa) e e') : Explored nfa start e' := by
  induction hsteps with
  | refl => exact h
  | tail _ hstep ih => exact ih.advances hstep

theorem Explored.getElem?_keys_zero (h : Explored nfa start e) (hpending : e.pending = []) :
    e.resolved.keys[0]? = some start := by
  have hfirst := h.first
  rwa [hpending, List.append_nil, List.head?_eq_getElem?] at hfirst

theorem Explored.mem_keys_iff (h : Explored nfa start e) (hpending : e.pending = [])
    (hstart : nfa.IsClosure (· = nfa.start) start) : S ∈ e.resolved.keys ↔ nfa.Composite S := by
  constructor
  · intro hS
    exact h.composite S (Or.inl hS)
  · intro hS
    induction hS with
    | @start T hT =>
        obtain rfl := hT.unique hstart
        exact List.mem_of_getElem? (h.getElem?_keys_zero hpending)
    | @move S T a _ hne hT ih =>
        obtain ⟨row, hrow⟩ := Roster.mem_keys_iff.1 ih
        have hmem := ((h.row S row hrow).mem a T).2 ⟨hne, hT⟩
        exact (h.covered S row hrow a T hmem).resolve_right (hpending ▸ List.not_mem_nil)

/-! ## The queue runs empty -/

/-- The sets of states of the automaton. -/
def subsets (nfa : Nfa) : List StateSet := nfa.states.sublists.map fun l => .ofList l

theorem length_subsets : (subsets nfa).length = Nat.pow 2 nfa.size := by
  rw [subsets, List.length_map, List.length_sublists, Nfa.states, Std.ExtTreeMap.length_keys]
  rfl

theorem mem_subsets (hS : ∀ s ∈ S, s ∈ nfa.relation) : S ∈ subsets nfa := by
  refine List.mem_map.2 ⟨nfa.states.filter S.contains, List.mem_sublists.2 List.filter_sublist, ?_⟩
  refine Std.ExtTreeSet.ext_mem fun s => ?_
  rw [Std.ExtTreeSet.mem_ofList]
  simp only [List.contains_eq_mem, List.mem_filter, Nfa.states, Std.ExtTreeMap.mem_keys,
    Std.ExtTreeSet.contains_iff_mem, decide_eq_true_eq]
  exact ⟨fun h => h.2, fun h => ⟨hS s h, h⟩⟩

theorem length_row_le (h : nfa.IsRow S row) : row.length ≤ nfa.edges.length := by
  have hlabels : row.map Prod.fst ⊆ nfa.edges.filterMap (·.label) := by
    intro a ha
    obtain ⟨⟨a, T⟩, hp, rfl⟩ := List.mem_map.1 ha
    obtain ⟨⟨_, _, _, hedge⟩, -⟩ := (h.mem a T).1 hp
    exact List.mem_filterMap.2 ⟨_, hedge, rfl⟩
  have hle := (h.nodup.subperm hlabels).length_le
  rw [List.length_map] at hle
  exact hle.trans (List.length_filterMap_le _ _)

/-- How many sets can still be taken from the queue: those waiting, and for each set not yet recorded as many as
there are edges. -/
def due (nfa : Nfa) (e : Exploration) : Nat :=
  e.pending.length + (Nat.pow 2 nfa.size - e.resolved.keys.length) * nfa.edges.length

theorem length_le_of_nodup {sets : List StateSet} (hnodup : sets.Nodup)
    (hsets : ∀ S ∈ sets, ∀ s ∈ S, s ∈ nfa.relation) : sets.length ≤ Nat.pow 2 nfa.size := by
  have hsubset : sets ⊆ subsets nfa := fun S hS => mem_subsets (hsets S hS)
  have hlength := (hnodup.subperm hsubset).length_le
  rwa [length_subsets] at hlength

/-- A set is recorded only while there are subsets left. -/
theorem length_keys_lt (hwf : nfa.WellFormed) (h : Explored nfa start e) {rest : List StateSet}
    (hpending : e.pending = S :: rest) (hS : S ∉ e.resolved.keys) :
    e.resolved.keys.length < Nat.pow 2 nfa.size := by
  refine length_le_of_nodup (List.nodup_cons.2 ⟨hS, e.resolved.nodup_keys⟩) ?_
  intro T hT s hs
  refine (h.composite T ?_).mem_relation hwf hs
  rcases List.mem_cons.1 hT with rfl | hT
  · exact Or.inr (hpending ▸ List.mem_cons_self)
  · exact Or.inl hT

theorem due_lt_of_advances (hwf : nfa.WellFormed) (h : Explored nfa start e) (hstep : Advances nfa e e') :
    due nfa e' < due nfa e := by
  cases hstep with
  | drop hpending _ =>
      simp only [due, hpending, List.length_cons]
      omega
  | @record set rest row hpending hS hrow =>
      have hnext : (e.record rest set row).pending.length ≤ rest.length + nfa.edges.length := by
        have hfilter := List.length_filter_le (fun t => !e.resolved.contains t) (row.map Prod.snd)
        have hle := length_row_le hrow
        rw [List.length_map] at hfilter
        rw [Exploration.record, List.length_append]
        omega
      -- One set fewer is left, and with it as many edges as the row can have.
      obtain ⟨k, hk⟩ := Nat.exists_eq_add_of_lt (length_keys_lt hwf h hpending hS)
      have hbefore : Nat.pow 2 nfa.size - e.resolved.keys.length = k + 1 := by omega
      have hafter : Nat.pow 2 nfa.size - (e.resolved.keys.length + 1) = k := by omega
      rw [due, due, keys_record hS, hpending, List.length_append, List.length_singleton, List.length_cons,
        hbefore, hafter, Nat.succ_mul]
      omega

/-- With as many steps allowed as can be due, the exploration goes on until nothing is waiting. -/
theorem explore_eq_ok (hwf : nfa.WellFormed) {pops : Nat} (h : Explored nfa start e) (hdue : due nfa e ≤ pops) :
    ∃ e', explore nfa pops e = .ok e' ∧ Relation.ReflTransGen (Advances nfa) e e' ∧ e'.pending = [] := by
  induction pops generalizing e with
  | zero =>
      refine ⟨e, rfl, .refl, List.eq_nil_of_length_eq_zero ?_⟩
      rw [due] at hdue
      omega
  | succ pops ih =>
      cases hpending : e.pending with
      | nil => exact ⟨e, by simp only [explore, hpending], .refl, hpending⟩
      | cons S rest =>
          have hS : nfa.Composite S := h.composite S (Or.inr (hpending ▸ List.mem_cons_self))
          obtain ⟨e₁, hstep, hadv⟩ := step_eq_ok hwf.2.2 h.worklist hpending fun s hs =>
            hS.mem_relation hwf hs
          have hlt := due_lt_of_advances hwf h hadv
          obtain ⟨e', hexplore, hsteps, hnil⟩ := ih (h.advances hadv) (by omega)
          refine ⟨e', ?_, hsteps.head hadv, hnil⟩
          simp only [explore, hpending, hstep]
          exact hexplore

/-- The exploration where it starts from, with the closure of the start waiting. -/
def Exploration.begin (start : StateSet) : Exploration where
  worklist := []
  interned := {start}
  resolved := ∅
  pending := [start]
  log := #[]

theorem explored_begin (hstart : nfa.IsClosure (· = nfa.start) start) :
    Explored nfa start (.begin start) where
  worklist := rfl
  composite := by
    intro S hS
    rcases hS with hS | hS
    · exact absurd hS List.not_mem_nil
    · rw [List.mem_singleton.1 hS]
      exact .start hstart
  row _ _ h := absurd h List.not_mem_nil
  covered _ _ h := absurd h List.not_mem_nil
  first := rfl

theorem close_start_eq_ok (hwf : nfa.WellFormed) : ∃ start e, close nfa [nfa.start] .initial = .ok (start, e) ∧
    { e with pending := [start] } = Exploration.begin start ∧ nfa.IsClosure (· = nfa.start) start := by
  have hseeds : ∀ s ∈ [nfa.start], s ∈ nfa.relation := fun s hs => List.mem_singleton.1 hs ▸ hwf.1
  obtain ⟨start, hclose, hstart⟩ := close_eq_ok hwf.2.2 (e := .initial) rfl hseeds
  refine ⟨start, _, hclose, ?_, hstart.congr fun s => List.mem_singleton⟩
  simp [Exploration.initial, Exploration.intern, Exploration.begin]

/-- The exploration of a well-formed automaton starts from the closure of its start and takes steps until nothing
is waiting. -/
theorem exploreAll_eq_ok (hwf : nfa.WellFormed) : ∃ start e, exploreAll nfa = .ok (start, e) ∧
    explore nfa (maxPops nfa) (.begin start) = .ok e ∧ nfa.IsClosure (· = nfa.start) start ∧
    Relation.ReflTransGen (Advances nfa) (.begin start) e ∧ e.pending = [] := by
  obtain ⟨start, e₀, hclose, hbegin, hstart⟩ := close_start_eq_ok hwf
  have hdue : due nfa (.begin start) ≤ maxPops nfa := by
    rw [due, maxPops]
    exact Nat.le_refl _
  obtain ⟨e, hexplore, hsteps, hnil⟩ := explore_eq_ok hwf (explored_begin hstart) hdue
  refine ⟨start, e, ?_, hexplore, hstart, hsteps, hnil⟩
  simp only [exploreAll, hclose, bind, Except.bind, hbegin, hexplore]
  rfl

end Automata.Subset
