/-
# What the construction reports

Each set is reported with its row when it is recorded, and a set is interned when a closure gives it, so neither the
reports nor the interned sets are made from the automaton that the construction ends with.  They agree with it all the
same (`Nfa.determinize_log`): the reports are those of the states 0, 1, … in this order, and as many sets are interned.

While the exploration goes on, the reports are the recorded sets with their rows, and the interned sets are those that
are recorded or waiting (`Logged`).  This is kept by a step of either kind: a set that is dropped was recorded before,
and what joins the interned sets joins the queue unless it was recorded before.  In the end nothing is waiting, so all
interned sets are recorded and have a number.
-/
import Automata.Proofs.Listing
import Automata.Proofs.Subset.Safety

namespace Automata.Subset

variable {nfa : Nfa} {start S T : StateSet} {e e' : Exploration} {row : CompositeRow} {rest : List StateSet}

/-! ## Interned sets -/

theorem exists_closureBegins (hwf : nfa.WellFormed) (hT : nfa.Composite T) :
    ∃ seeds e₁ e₂, ClosureBegins nfa seeds e₁ ∧ close nfa seeds e₁ = .ok (T, e₂) := by
  obtain ⟨start, e, -, hexplore, hstart, hsteps, hpending⟩ := exploreAll_eq_ok hwf
  obtain ⟨_, e₀, hclose, hbegin, hstart'⟩ := close_start_eq_ok hwf
  obtain rfl := hstart.unique hstart'
  have hexplored := explored_begin hstart
  cases hT with
  | start hT =>
      obtain rfl := hT.unique hstart
      exact ⟨_, _, _, .start, hclose⟩
  | @move S T a hS hne hT =>
      obtain ⟨sets, hpops⟩ := exists_pops hexplore
      have hmem : S ∈ sets := by
        have hkeys := ((hexplored.reaches hsteps).mem_keys_iff hpending hstart).2 hS
        exact ((hpops.mem_keys_iff hexplored hwf).1 hkeys).resolve_left List.not_mem_nil
      -- When the set is taken for the first time, a closure of each of its collections is begun.
      obtain ⟨before, after, rfl, hnew⟩ := List.eq_append_cons_of_mem hmem
      obtain ⟨e₁, hbefore, hafter⟩ := hpops.split
      cases hafter with
      | @cons _ _ _ _ rest _ hfirst _ _ =>
          have hnot : S ∉ e₁.resolved.keys := by
            intro hkeys
            exact hnew (((hbefore.mem_keys_iff hexplored hwf).1 hkeys).resolve_left List.not_mem_nil)
          obtain ⟨m, hmoves, hM⟩ := moves_eq_ok fun s hs => hS.mem_relation hwf hs
          obtain ⟨targets, ha⟩ := hM.exists_collection hne
          obtain ⟨others, more, hm⟩ := List.append_of_mem (Std.ExtTreeMap.mem_toList_iff_getElem?_eq_some.2 ha)
          have htargets := hM.mem_relation hwf.2.2
          rw [hm] at htargets
          obtain ⟨row, hrow, -⟩ := closeAll_eq_ok (e := { e₁ with pending := rest }) hwf.2.2
            (hbefore.explored hexplored hwf).worklist fun p hp => htargets p (List.mem_append_left _ hp)
          have hbegins := ClosureBegins.targets hclose (hbegin ▸ hbefore) hfirst hnot hmoves hm hrow
          obtain ⟨hworklist, hseeds⟩ := hbegins.ready hwf
          obtain ⟨U, hcloseU, hU⟩ := close_eq_ok hwf.2.2 hworklist hseeds
          have hU := hU.congr fun t => Std.ExtTreeSet.mem_toList.trans (hM.mem_collection ha t)
          obtain rfl := hU.unique hT
          exact ⟨_, _, _, hbegins, hcloseU⟩

/-! ## The invariant -/

/-- The recorded sets have been reported with their rows, in order and nothing else has, and the interned sets are those
recorded or waiting. -/
structure Logged (e : Exploration) : Prop where
  log : e.log.toList = e.resolved.entries.map fun p => .resolved p.1 p.2
  interned : ∀ T, T ∈ e.interned ↔ T ∈ e.resolved.keys ∨ T ∈ e.pending

theorem logged_begin (start : StateSet) : Logged (.begin start) where
  log := rfl
  interned T := by simp [Exploration.begin, Roster.keys, eq_comm (b := start)]

theorem Logged.drop (h : Logged e) (hpending : e.pending = S :: rest) (hS : S ∈ e.resolved.keys) :
    Logged { e with pending := rest } where
  log := h.log
  interned := by
    intro T
    rw [h.interned, hpending, List.mem_cons]
    constructor
    · rintro (hT | rfl | hT)
      · exact Or.inl hT
      · exact Or.inl hS
      · exact Or.inr hT
    · exact Or.imp_right Or.inr

theorem Logged.record (h : Logged e) (hpending : e.pending = S :: rest) (hS : S ∉ e.resolved.keys) :
    Logged (e.record rest S row) where
  log := by
    rw [entries_record hS, List.map_append, ← h.log]
    exact Array.toList_push
  interned := by
    intro T
    have hinterned : T ∈ (e.record rest S row).interned ↔ T ∈ e.interned ∨ T ∈ row.map Prod.snd := by
      simp [Exploration.record, Std.ExtTreeSet.mem_insertMany_list]
    have hnext : T ∈ (e.record rest S row).pending ↔ T ∈ rest ∨ T ∈ row.map Prod.snd ∧ T ∉ e.resolved.keys := by
      simp [Exploration.record, ← Bool.not_eq_true, Roster.contains_iff]
    rw [hinterned, hnext, keys_record hS, h.interned, hpending, List.mem_cons, List.mem_append, List.mem_singleton]
    by_cases hT : T ∈ e.resolved.keys
    · exact iff_of_true (Or.inl (Or.inl hT)) (Or.inl (Or.inl hT))
    · simp only [hT, not_false_eq_true, and_true, false_or, or_assoc]

theorem Logged.advances (h : Logged e) (hstep : Advances nfa e e') : Logged e' := by
  cases hstep with
  | drop hpending hS => exact h.drop hpending hS
  | record hpending hS _ => exact h.record hpending hS

theorem Logged.reaches (h : Logged e) (hsteps : Relation.ReflTransGen (Advances nfa) e e') : Logged e' := by
  induction hsteps with
  | refl => exact h
  | tail _ hstep ih => exact ih.advances hstep

/-- When nothing is waiting, as many sets are interned as are recorded. -/
theorem Logged.size_interned (h : Logged e) (hpending : e.pending = []) :
    e.interned.size = e.resolved.keys.length := by
  have hnodup : e.interned.toList.Nodup := Std.ExtTreeSet.distinct_toList.imp fun hne heq => hne (by simp [heq])
  have hmem : ∀ T, T ∈ e.interned.toList ↔ T ∈ e.resolved.keys := by
    intro T
    rw [Std.ExtTreeSet.mem_toList, h.interned, hpending]
    exact or_iff_left List.not_mem_nil
  rw [← Std.ExtTreeSet.length_toList]
  exact ((List.perm_ext_iff_of_nodup hnodup e.resolved.nodup_keys).2 hmem).length_eq

/-! ## Rows of numbered states -/

theorem Numbers.exists_edges {resolved : Roster StateSet CompositeRow} {exit : StateName} {dfa : Dfa} {id : Nat}
    (h : Numbers resolved exit dfa) (hid : resolved.entries[id]? = some (S, row)) :
    ∃ edges, dfa.relation[id]? = some edges ∧ NumberedRow resolved row edges := by
  have hrelation : id ∈ dfa.relation := by
    rw [← Std.ExtTreeMap.mem_keys, ← Dfa.states, h.states, List.mem_range, Roster.keys, List.length_map]
    exact (List.getElem?_eq_some_iff.1 hid).1
  obtain ⟨edges, hedges⟩ := Option.isSome_iff_exists.1 (Std.ExtTreeMap.mem_iff_isSome_getElem?.1 hrelation)
  refine ⟨edges, hedges, ?_⟩
  intro a j
  have htarget := h.target id a j
  rw [Dfa.target?, hedges] at htarget
  rw [htarget]
  constructor
  · rintro ⟨S', row', T, hid', hT, hj⟩
    obtain ⟨-, rfl⟩ := Prod.mk.inj (Option.some.inj (hid.symm.trans hid'))
    exact ⟨T, hT, hj⟩
  · rintro ⟨T, hT, hj⟩
    exact ⟨S, row, T, hid, hT, hj⟩

end Automata.Subset

namespace Automata

open Subset

/-- The set and the row are those of the state: the set stands behind it, and the row has its edges, each with the set
that stands behind its target. -/
def Determinization.Reports (d : Determinization) (id : Nat) (S : StateSet) (row : CompositeRow) : Prop :=
  d.composite? id = some S ∧ ∃ edges, d.dfa.row? id = some edges ∧
    edges.map (fun p => (p.1, d.composite? p.2)) = row.map fun p => (p.1, some p.2)

/-- What is recorded in a place when nothing is waiting belongs to the state with this number. -/
theorem Subset.Follows.reports {nfa : Nfa} {start S : StateSet} {e : Exploration} {d : Determinization}
    {row : CompositeRow} {id : Nat} (h : Follows nfa e d) (hexplored : Explored nfa start e) (hpending : e.pending = [])
    (hid : e.resolved.entries[id]? = some (S, row)) : d.Reports id S row := by
  have hkey : e.resolved.keys[id]? = some S := by rw [Roster.keys, List.getElem?_map, hid, Option.map_some]
  have hentry : (S, row) ∈ e.resolved.entries := List.mem_of_getElem? hid
  obtain ⟨edges, hedges, hrow⟩ := h.numbers.exists_edges hid
  refine ⟨(h.composite id).trans hkey, edges.toList, by rw [Dfa.row?, hedges, Option.map_some], ?_⟩
  -- Both lists come by ascending symbol, so it is enough to compare their members.
  refine eq_of_ascending Prod.fst (List.pairwise_map.2 Std.ExtTreeMap.ordered_keys_toList)
    (List.pairwise_map.2 (hexplored.row S row hentry).ascending) ?_
  rintro ⟨a, T?⟩
  simp only [List.mem_map, Prod.mk.injEq, Prod.exists, Std.ExtTreeMap.mem_toList_iff_getElem?_eq_some]
  constructor
  · rintro ⟨a, j, haj, rfl, rfl⟩
    obtain ⟨T, hT, hj⟩ := (hrow a j).1 haj
    exact ⟨a, T, hT, rfl, ((h.composite j).trans hj).symm⟩
  · rintro ⟨a, T, hT, rfl, rfl⟩
    have hknown := (hexplored.covered S row hentry a T hT).resolve_right (hpending ▸ List.not_mem_nil)
    obtain ⟨j, hj⟩ := List.mem_iff_getElem?.1 hknown
    exact ⟨a, j, (hrow a j).2 ⟨T, hT, hj⟩, rfl, (h.composite j).trans hj⟩

namespace Nfa

/-- What the determinization of a well-formed automaton reports agrees with its result.  The exploration reports
different sets with their rows, those of the states 0, 1, … in this order and of all states; after that the result is
summed up.  The sets that closures have given in the meantime are interned, and there are as many of them as states and
reports. -/
theorem determinize_log (nfa : Nfa) (hwf : nfa.WellFormed) : ∃ d start e, ∃ reports : List (StateSet × CompositeRow),
    nfa.determinize = .ok d ∧ exploreAll nfa = .ok (start, e) ∧
    e.log.toList = reports.map (fun p => Event.resolved p.1 p.2) ∧
    d.log = e.log.push (.finished nfa.size d.dfa.size d.dfa.accept.size e.interned.size) ∧
    d.dfa.states = List.range reports.length ∧ (reports.map Prod.fst).Nodup ∧
    (∀ id S row, reports[id]? = some (S, row) → d.Reports id S row) ∧
    (∀ T, T ∈ e.interned ↔ ∃ seeds e₁ e₂, ClosureBegins nfa seeds e₁ ∧ close nfa seeds e₁ = .ok (T, e₂)) ∧
    d.dfa.size = reports.length ∧ e.interned.size = reports.length := by
  obtain ⟨start, e, hexplore, -, hstart, hsteps, hpending⟩ := exploreAll_eq_ok hwf
  have hexplored := (explored_begin hstart).reaches hsteps
  have hlogged := (logged_begin start).reaches hsteps
  obtain ⟨d, hd, hfollows, -⟩ := determinize_follows hexplore hexplored hpending
  have hlength : e.resolved.entries.length = e.resolved.keys.length := by rw [Roster.keys, List.length_map]
  refine ⟨d, start, e, e.resolved.entries, hd, hexplore, hlogged.log, hfollows.log, ?_, e.resolved.nodup_keys, ?_, ?_, ?_,
    ?_⟩
  · rw [hlength]
    exact hfollows.numbers.states
  · intro id S row hid
    exact hfollows.reports hexplored hpending hid
  · intro T
    constructor
    · intro hT
      refine exists_closureBegins hwf (hexplored.composite T ?_)
      exact (hlogged.interned T).1 hT
    · rintro ⟨seeds, e₁, e₂, hbegins, hclose⟩
      refine (hlogged.interned T).2 (Or.inl ?_)
      exact (hexplored.mem_keys_iff hpending hstart).2 (hbegins.composite hwf hclose)
  · rw [hlength]
    exact hfollows.size_eq
  · rw [hlength]
    exact hlogged.size_interned hpending

/-- A set that three words lead to, two of them before it is recorded, an epsilon cycle and an edge given twice. -/
theorem determinize_log_met_again :
    let lists : List (StateName × List Transition) :=
      [(0, [⟨some "b", 4⟩, ⟨some "a", 4⟩, ⟨some "a", 4⟩]), (4, [⟨none, 6⟩, ⟨some "", 0⟩]), (6, [⟨none, 4⟩, ⟨some "a", 6⟩])]
    let nfa : Nfa := ⟨0, 6, .ofList lists⟩
    nfa.WellFormed ∧ ∃ d start e, ∃ reports : List (StateSet × CompositeRow),
      nfa.determinize = .ok d ∧ exploreAll nfa = .ok (start, e) ∧
      e.log.toList = reports.map (fun p => Event.resolved p.1 p.2) ∧ (reports.map Prod.fst).Nodup ∧
      (∀ id S row, reports[id]? = some (S, row) → d.Reports id S row) ∧ d.dfa.size = reports.length ∧
      e.interned.size = reports.length := by
  intro lists nfa
  have hwf : nfa.WellFormed := by decide
  obtain ⟨d, start, e, reports, hd, hexplore, hlog, -, -, hnodup, hreports, -, hsize, hinterned⟩ :=
    determinize_log nfa hwf
  exact ⟨hwf, d, start, e, reports, hd, hexplore, hlog, hnodup, hreports, hsize, hinterned⟩

end Nfa

end Automata
