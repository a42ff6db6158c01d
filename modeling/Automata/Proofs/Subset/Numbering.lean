/-
# The numbered automaton

Numbering the recorded sets cannot fail as long as every edge out of one leads to another, and it changes nothing
but the names: a number is the place of its set in the list, and an edge leads from number to number where the row of
the one set names the other (`Determinization.Numbers`).

For a well-formed automaton the recorded sets are the composite states.  So its determinization succeeds, and the
result is described without the exploration by `Determinization.Represents`.
-/
import Mathlib.Data.List.Sort
import Automata.Determinization
import Automata.Proofs.Bijection
import Automata.Proofs.Subset.Exploration

namespace Automata.Subset

variable {resolved : Roster StateSet CompositeRow}

theorem getElem?_ofList_eq_some_iff {κ α : Type} [Ord κ] [Std.TransOrd κ] [Std.LawfulEqOrd κ] [BEq κ] [LawfulBEq κ]
    {l : List (κ × α)} (h : (l.map Prod.fst).Nodup) {k : κ} {v : α} :
    (Std.ExtTreeMap.ofList l compare)[k]? = some v ↔ (k, v) ∈ l := by
  have hdistinct : l.Pairwise fun a b => ¬ compare a.1 b.1 = .eq :=
    (List.pairwise_map.1 h).imp fun h heq => h (Std.LawfulEqOrd.eq_of_compare heq)
  constructor
  · intro hv
    have hmem : k ∈ Std.ExtTreeMap.ofList l compare := Std.ExtTreeMap.mem_iff_isSome_getElem?.2 (by simp [hv])
    rw [Std.ExtTreeMap.mem_ofList, List.contains_iff_mem, List.mem_map] at hmem
    obtain ⟨⟨_, v'⟩, hp, rfl⟩ := hmem
    rw [Std.ExtTreeMap.getElem?_ofList_of_mem Std.ReflOrd.compare_self hdistinct hp] at hv
    exact Option.some.inj hv ▸ hp
  · intro hp
    exact Std.ExtTreeMap.getElem?_ofList_of_mem Std.ReflOrd.compare_self hdistinct hp

/-! ## Numbers for sets -/

theorem number_eq_ok_iff {S : StateSet} {id : Nat} :
    number resolved S = .ok id ↔ resolved.keys[id]? = some S := by
  rw [← Roster.indexOf?_eq_some_iff, number]
  split
  · next j hj => simp [hj]
  · next hj => simp [hj]

theorem numberRow_eq_ok {row : CompositeRow} (h : ∀ p ∈ row, p.2 ∈ resolved.keys) :
    ∃ ids, numberRow resolved row = .ok ids ∧ ids.map Prod.fst = row.map Prod.fst ∧
      ∀ a j, (a, j) ∈ ids ↔ ∃ T, (a, T) ∈ row ∧ resolved.keys[j]? = some T := by
  induction row with
  | nil => exact ⟨[], rfl, rfl, by simp⟩
  | cons p row ih =>
      obtain ⟨b, U⟩ := p
      obtain ⟨id, hid⟩ := List.mem_iff_getElem?.1 (h _ List.mem_cons_self)
      obtain ⟨ids, hids, hfst, hmem⟩ := ih fun p hp => h p (List.mem_cons_of_mem _ hp)
      refine ⟨(b, id) :: ids, ?_, by simp [hfst], ?_⟩
      · simp only [numberRow, number_eq_ok_iff.2 hid, hids, bind, Except.bind]
        rfl
      · intro a j
        have hid' : resolved.keys[j]? = some U ↔ j = id := by
          constructor
          · intro hj
            exact Roster.place_unique hj hid
          · rintro rfl
            exact hid
        simp only [List.mem_cons, Prod.mk.injEq, hmem, or_and_right, exists_or, ← hid', and_assoc,
          exists_and_left, exists_eq_left]

/-- The row of edges says to which number each symbol leads. -/
def NumberedRow (resolved : Roster StateSet CompositeRow) (row : CompositeRow)
    (edges : Std.ExtTreeMap String Nat) : Prop :=
  ∀ a j, edges[a]? = some j ↔ ∃ T, (a, T) ∈ row ∧ resolved.keys[j]? = some T

/-- Numbered rows come under consecutive numbers, each with the edges of its row. -/
theorem numberRows_eq_ok {entries : List (StateSet × CompositeRow)} {k : Nat}
    (h : ∀ p ∈ entries, (p.2.map Prod.fst).Nodup ∧ ∀ q ∈ p.2, q.2 ∈ resolved.keys) :
    ∃ rows, numberRows resolved k entries = .ok rows ∧ rows.map Prod.fst = List.range' k entries.length ∧
      ∀ i S row, entries[i]? = some (S, row) →
        ∃ edges, (k + i, edges) ∈ rows ∧ NumberedRow resolved row edges := by
  induction entries generalizing k with
  | nil => exact ⟨[], rfl, rfl, by simp⟩
  | cons p entries ih =>
      obtain ⟨S, row⟩ := p
      obtain ⟨hnodup, hknown⟩ := h _ List.mem_cons_self
      obtain ⟨ids, hids, hfst, hmem⟩ := numberRow_eq_ok hknown
      obtain ⟨rows, hrows, hnumbers, hall⟩ := ih (k := k + 1) fun p hp =>
        h p (List.mem_cons_of_mem _ hp)
      refine ⟨(k, .ofList ids) :: rows, ?_, by simp [hnumbers, List.range'_succ], ?_⟩
      · simp only [numberRows, hids, hrows, bind, Except.bind]
        rfl
      · intro i S' row' hi
        cases i with
        | zero =>
            obtain ⟨rfl, rfl⟩ := Prod.mk.inj (Option.some.inj hi)
            refine ⟨_, List.mem_cons_self, ?_⟩
            intro a j
            rw [getElem?_ofList_eq_some_iff (hfst ▸ hnodup), hmem]
        | succ i =>
            obtain ⟨edges, hedges, hrow⟩ := hall i S' row' hi
            refine ⟨edges, List.mem_cons_of_mem _ ?_, hrow⟩
            rwa [Nat.add_right_comm, Nat.add_assoc] at hedges

/-! ## The numbered automaton -/

/-- The states of the automaton are the recorded sets, under their places. -/
structure Numbers (resolved : Roster StateSet CompositeRow) (exit : StateName) (dfa : Dfa) : Prop where
  states : dfa.states = List.range resolved.keys.length
  target : ∀ id a j, dfa.target? id a = some j ↔
    ∃ S row T, resolved.entries[id]? = some (S, row) ∧ (a, T) ∈ row ∧ resolved.keys[j]? = some T
  accepting : ∀ id, dfa.isAccepting id = true ↔ ∃ S, resolved.keys[id]? = some S ∧ exit ∈ S

theorem numbers_of_rows {exit : StateName} {start : Nat} {rows : List (Nat × Std.ExtTreeMap String Nat)}
    (hnumbers : rows.map Prod.fst = List.range resolved.keys.length)
    (hrows : ∀ i S row, resolved.entries[i]? = some (S, row) →
      ∃ edges, (i, edges) ∈ rows ∧ NumberedRow resolved row edges) :
    Numbers resolved exit ⟨start, accepting exit resolved.keys, .ofList rows⟩ where
  states := by
    have hascending : (Std.ExtTreeMap.ofList rows compare).keys.Pairwise (· < ·) :=
      Std.ExtTreeMap.ordered_keys.imp fun h => Nat.compare_eq_lt.1 h
    refine hascending.eq_of_mem_iff List.pairwise_lt_range ?_
    intro id
    rw [Std.ExtTreeMap.mem_keys, Std.ExtTreeMap.mem_ofList, List.contains_iff_mem, hnumbers]
  target := by
    intro id a j
    have hnodup : (rows.map Prod.fst).Nodup := hnumbers ▸ List.nodup_range
    simp only [Dfa.target?]
    constructor
    · intro h
      split at h
      · next edges hedges =>
          have hmem := (getElem?_ofList_eq_some_iff hnodup).1 hedges
          have hid : id < resolved.entries.length := by
            have := List.mem_map_of_mem (f := Prod.fst) hmem
            rwa [hnumbers, List.mem_range, Roster.keys, List.length_map] at this
          obtain ⟨edges', hmem', hrow⟩ := hrows id _ _ (List.getElem?_eq_getElem hid)
          have hedges' := (getElem?_ofList_eq_some_iff hnodup).2 hmem'
          obtain rfl := Option.some.inj (hedges.symm.trans hedges')
          obtain ⟨T, hT, hj⟩ := (hrow a j).1 h
          exact ⟨_, _, T, List.getElem?_eq_getElem hid, hT, hj⟩
      · cases h
    · rintro ⟨S, row, T, hid, hT, hj⟩
      obtain ⟨edges, hmem, hrow⟩ := hrows id S row hid
      simp only [(getElem?_ofList_eq_some_iff hnodup).2 hmem]
      exact (hrow a j).2 ⟨T, hT, hj⟩
  accepting := by
    intro id
    simp only [Dfa.isAccepting, accepting, Std.ExtTreeSet.contains_ofList, List.contains_iff_mem, List.mem_map,
      List.mem_filter, Prod.exists, exists_eq_right, List.mk_mem_zipIdx_iff_getElem?,
      Std.ExtTreeSet.contains_iff_mem]

theorem Numbers.wellFormed {exit : StateName} {dfa : Dfa} (h : Numbers resolved exit dfa)
    (hstart : dfa.start < resolved.keys.length) : dfa.WellFormed := by
  have hmem : ∀ {id : Nat} {S : StateSet}, resolved.keys[id]? = some S → id ∈ dfa.relation := by
    intro id S hid
    rw [← Std.ExtTreeMap.mem_keys, ← Dfa.states, h.states, List.mem_range]
    exact (List.getElem?_eq_some_iff.1 hid).1
  refine ⟨hmem (List.getElem?_eq_getElem hstart), ?_, ?_⟩
  · intro id hid
    obtain ⟨S, hS, -⟩ := (h.accepting id).1 (Std.ExtTreeSet.contains_iff_mem.2 (Std.ExtTreeSet.mem_toList.1 hid))
    exact hmem hS
  · rintro ⟨s, l, t⟩ he
    obtain ⟨S, row, T, -, -, ht⟩ := (h.target s l t).1 (Dfa.mem_edges_iff.1 he)
    exact hmem ht

/-! ## The whole determinization -/

variable {nfa : Nfa} {start : StateSet} {e : Exploration} {d : Determinization}

/-- The determinization numbers what the exploration has recorded and reports what it has reported. -/
structure Follows (nfa : Nfa) (e : Exploration) (d : Determinization) : Prop where
  start : d.dfa.start = 0
  numbers : Numbers e.resolved nfa.exit d.dfa
  composite : ∀ id, d.composite? id = e.resolved.keys[id]?
  stateOf : ∀ S id, d.stateOf? S = some id ↔ e.resolved.keys[id]? = some S
  log : d.log = e.log.push (.finished nfa.size d.dfa.size d.dfa.accept.size e.interned.size)

theorem Follows.wellFormed (h : Follows nfa e d) (hexplored : Explored nfa start e) (hpending : e.pending = []) :
    d.dfa.WellFormed :=
  h.numbers.wellFormed (h.start ▸ (List.getElem?_eq_some_iff.1 (hexplored.getElem?_keys_zero hpending)).1)

/-- Numbering succeeds when nothing is waiting any more, and each set that it pairs with its number is new. -/
theorem determinize_follows (hexplore : exploreAll nfa = .ok (start, e)) (h : Explored nfa start e)
    (hpending : e.pending = []) : ∃ d, nfa.determinize = .ok d ∧ Follows nfa e d ∧
      Bijection.empty.insertAll e.resolved.keys.zipIdx
        = .ok (e.resolved.keys.zipIdx.map fun _ => true, d.composites) := by
  have hfirst := h.getElem?_keys_zero hpending
  have hentries : ∀ p ∈ e.resolved.entries, (p.2.map Prod.fst).Nodup ∧ ∀ q ∈ p.2, q.2 ∈ e.resolved.keys := by
    rintro ⟨S, row⟩ hp
    refine ⟨(h.row S row hp).nodup, ?_⟩
    rintro ⟨a, T⟩ hq
    exact (h.covered S row hp a T hq).resolve_right (hpending ▸ List.not_mem_nil)
  obtain ⟨rows, hrows, hnumbers, hall⟩ := numberRows_eq_ok (k := 0) hentries
  have hlength : e.resolved.entries.length = e.resolved.keys.length := by rw [Roster.keys, List.length_map]
  let dfa : Dfa := ⟨0, accepting nfa.exit e.resolved.keys, .ofList rows⟩
  have hdfa : Numbers e.resolved nfa.exit dfa := by
    refine numbers_of_rows ?_ ?_
    · rw [hnumbers, hlength, List.range_eq_range']
    · intro i S row hi
      obtain ⟨edges, hmem, hrow⟩ := hall i S row hi
      exact ⟨edges, Nat.zero_add i ▸ hmem, hrow⟩
  have hparts : ofParts 0 (accepting nfa.exit e.resolved.keys) (.ofList rows) = .ok dfa :=
    ofParts_eq_ok_iff.2 ⟨hdfa.wellFormed (List.getElem?_eq_some_iff.1 hfirst).1, rfl⟩
  have hsets : (e.resolved.keys.zipIdx.map Prod.fst).Nodup := by
    rw [List.zipIdx_map_fst]
    exact e.resolved.nodup_keys
  have hplaces : (e.resolved.keys.zipIdx.map Prod.snd).Nodup := by
    rw [List.zipIdx_map_snd]
    exact List.nodup_range' _
  obtain ⟨b, hb, himage, hpreimage⟩ := Bijection.insertAll_of_fresh (b := .empty) hsets hplaces
    fun _ _ => ⟨Std.ExtTreeMap.getElem?_empty, Std.ExtTreeMap.getElem?_empty⟩
  refine ⟨⟨dfa, b, e.log.push (.finished nfa.size dfa.size dfa.accept.size e.interned.size)⟩, ?_, ⟨rfl,
    hdfa, ?_, ?_, rfl⟩, hb⟩
  · simp only [Nfa.determinize, hexplore, hrows, number_eq_ok_iff.2 hfirst, hparts, hb, bind, Except.bind,
      Except.mapError]
    rfl
  · intro id
    refine Option.ext fun S => ?_
    rw [Determinization.composite?, hpreimage, List.mk_mem_zipIdx_iff_getElem?]
    exact or_iff_left (by simp [Bijection.empty, Bijection.preimage])
  · intro S id
    rw [Determinization.stateOf?, himage, List.mk_mem_zipIdx_iff_getElem?]
    exact or_iff_left (by simp [Bijection.empty, Bijection.image])

end Automata.Subset
