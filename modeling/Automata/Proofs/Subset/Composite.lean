/-
# Sets of states and the edges between them

What the subset construction ought to find, said without it.  By a symbol a set of states moves to the targets of the
edges with that symbol out of its members (`Nfa.Move`).  The composite states are the least family of sets that
holds the closure of the start and, with a set, the closure of whatever it moves to by some symbol, unless it moves
nowhere (`Nfa.Composite`).  The row of a set lists these closures by ascending symbol (`Nfa.IsRow`).

The rest of the module shows that collecting the transitions of a set and closing each collection gives its row.
-/
import Automata.Proofs.Closure
import Automata.Subset.Exploration

namespace Automata

namespace Nfa

/-- Some member of the set has an edge with the symbol to the state. -/
def Move (nfa : Nfa) (S : StateSet) (a : String) (t : StateName) : Prop :=
  ∃ s ∈ S, ⟨s, some a, t⟩ ∈ nfa.edges

/-- The composite states: what closures and moves lead to from the start. -/
inductive Composite (nfa : Nfa) : StateSet → Prop where
  | start {T : StateSet} : nfa.IsClosure (· = nfa.start) T → Composite nfa T
  | move {S T : StateSet} {a : String} : Composite nfa S → (∃ t, nfa.Move S a t) →
      nfa.IsClosure (nfa.Move S a) T → Composite nfa T

/-- The row lists by ascending symbol the closures of what the set moves to. -/
structure IsRow (nfa : Nfa) (S : StateSet) (row : CompositeRow) : Prop where
  ascending : row.Pairwise fun p q => compare p.1 q.1 = .lt
  mem : ∀ a T, (a, T) ∈ row ↔ (∃ t, nfa.Move S a t) ∧ nfa.IsClosure (nfa.Move S a) T

variable {nfa : Nfa} {S T : StateSet} {s t : StateName}

/-! ## Composite states -/

theorem Composite.isClosure (h : nfa.Composite S) : ∃ P, (∃ s, P s) ∧ nfa.IsClosure P S := by
  cases h with
  | start h => exact ⟨(· = nfa.start), ⟨nfa.start, rfl⟩, h⟩
  | move _ hne h => exact ⟨_, hne, h⟩

theorem Composite.mem_of_path (h : nfa.Composite S) (hs : s ∈ S) (hp : nfa.Path s [] t) : t ∈ S := by
  obtain ⟨_, -, hclosure⟩ := h.isClosure
  exact hclosure.mem_of_path hs hp

theorem Composite.nonempty (h : nfa.Composite S) : ∃ s, s ∈ S := by
  obtain ⟨_, ⟨s, hs⟩, hclosure⟩ := h.isClosure
  exact ⟨s, (hclosure s).2 ⟨s, hs, .nil s⟩⟩

theorem path_mem_relation (hclosed : ∀ e ∈ nfa.edges, e.target ∈ nfa.relation) {w : List String}
    (hp : nfa.Path s w t) (hs : s ∈ nfa.relation) : t ∈ nfa.relation := by
  induction hp with
  | nil _ => exact hs
  | epsilon he _ ih => exact ih (hclosed _ he)
  | symbol he _ ih => exact ih (hclosed _ he)

theorem Composite.exists_path (h : nfa.Composite S) (hs : s ∈ S) : ∃ w, nfa.Path nfa.start w s := by
  induction h generalizing s with
  | start hT =>
      obtain ⟨_, rfl, hp⟩ := (hT s).1 hs
      exact ⟨[], hp⟩
  | @move S T a _ _ hT ih =>
      obtain ⟨t, ⟨x, hx, he⟩, hp⟩ := (hT s).1 hs
      obtain ⟨w, hw⟩ := ih hx
      exact ⟨w ++ [a], hw.append (.symbol he hp)⟩

theorem Composite.mem_relation (hwf : nfa.WellFormed) (h : nfa.Composite S) (hs : s ∈ S) :
    s ∈ nfa.relation := by
  obtain ⟨w, hw⟩ := h.exists_path hs
  exact path_mem_relation hwf.2.2 hw hwf.1

theorem IsRow.nodup {row : CompositeRow} (h : nfa.IsRow S row) : (row.map Prod.fst).Nodup := by
  refine List.pairwise_map.2 (h.ascending.imp fun {p q} hpq heq => ?_)
  rw [heq, Std.ReflOrd.compare_self] at hpq
  cases hpq

end Nfa

namespace Subset

variable {nfa : Nfa} {S : StateSet} {m : Moves} {M M' : String → StateName → Prop}

/-! ## Collecting transitions -/

/-- Each symbol has just the targets that belong to it, and no symbol is there without one. -/
structure Collects (m : Moves) (M : String → StateName → Prop) : Prop where
  mem : ∀ a t, t ∈ (m[a]?).getD ∅ ↔ M a t
  nonempty : ∀ a, a ∈ m → ∃ t, M a t

theorem Collects.congr (h : Collects m M) (hM : ∀ a t, M a t ↔ M' a t) : Collects m M' where
  mem a t := (h.mem a t).trans (hM a t)
  nonempty a ha := (h.nonempty a ha).imp fun t => (hM a t).1

theorem Collects.mem_collection (h : Collects m M) {a : String} {targets : StateSet}
    (ha : m[a]? = some targets) (t : StateName) : t ∈ targets ↔ M a t := by
  have hmem := h.mem a t
  rwa [ha] at hmem

theorem Collects.exists_collection (h : Collects m M) {a : String} (hne : ∃ t, M a t) :
    ∃ targets, m[a]? = some targets := by
  obtain ⟨t, ht⟩ := hne
  cases ha : m[a]? with
  | none =>
      have hmem := (h.mem a t).2 ht
      rw [ha] at hmem
      exact absurd hmem Std.ExtTreeSet.not_mem_empty
  | some targets => exact ⟨targets, rfl⟩

theorem Collects.addTransition (h : Collects m M) (tr : Transition) :
    Collects (addTransition m tr) fun a t => M a t ∨ tr = ⟨some a, t⟩ := by
  obtain ⟨label, target⟩ := tr
  cases label with
  | none => exact h.congr fun a t => by simp
  | some b =>
      refine ⟨?_, ?_⟩
      · intro a t
        simp only [Subset.addTransition, Std.ExtTreeMap.getElem?_alter, ← h.mem a t,
          Std.LawfulEqOrd.compare_eq_iff_eq]
        split
        · next hab =>
            subst hab
            simp [or_comm]
        · next hab => simp [hab]
      · intro a ha
        rw [Subset.addTransition, Std.ExtTreeMap.mem_alter] at ha
        split at ha
        · next hab =>
            obtain rfl := Std.LawfulEqOrd.compare_eq_iff_eq.1 hab
            exact ⟨target, Or.inr rfl⟩
        · exact (h.nonempty a ha).imp fun t => Or.inl

theorem Collects.foldl (h : Collects m M) (ts : List Transition) :
    Collects (ts.foldl Subset.addTransition m) fun a t => M a t ∨ ⟨some a, t⟩ ∈ ts := by
  induction ts generalizing m M with
  | nil => exact h.congr fun a t => by simp
  | cons tr ts ih =>
      refine (ih (h.addTransition tr)).congr ?_
      intro a t
      rw [List.mem_cons, or_assoc, @eq_comm _ tr]

theorem collect_eq_ok {states : List StateName} (h : Collects m M) (hmem : ∀ s ∈ states, s ∈ nfa.relation) :
    ∃ m', collect nfa states m = .ok m' ∧
      Collects m' fun a t => M a t ∨ ∃ s ∈ states, ⟨s, some a, t⟩ ∈ nfa.edges := by
  induction states generalizing m M with
  | nil => exact ⟨m, rfl, h.congr fun a t => by simp⟩
  | cons s states ih =>
      obtain ⟨ts, hts⟩ := Option.isSome_iff_exists.1
        (Std.ExtTreeMap.mem_iff_isSome_getElem?.1 (hmem s List.mem_cons_self))
      obtain ⟨m', hm', hM⟩ := ih (h.foldl ts) fun t ht => hmem t (List.mem_cons_of_mem s ht)
      refine ⟨m', ?_, hM.congr ?_⟩
      · rw [collect, Nfa.transitions?, hts]
        exact hm'
      · intro a t
        have hs : (⟨s, some a, t⟩ : Edge) ∈ nfa.edges ↔ ⟨some a, t⟩ ∈ ts := by
          rw [Nfa.mem_edges_iff, Nfa.transitions?, hts]
          simp
        simp [hs, or_assoc]

theorem moves_eq_ok (hS : ∀ s ∈ S, s ∈ nfa.relation) :
    ∃ m, moves nfa S = .ok m ∧ Collects m (nfa.Move S) := by
  have hempty : Collects ∅ fun _ _ => False := ⟨fun a t => by simp, fun a ha => by simp at ha⟩
  obtain ⟨m, hm, hM⟩ := collect_eq_ok hempty fun s hs => hS s (Std.ExtTreeSet.mem_toList.1 hs)
  exact ⟨m, hm, hM.congr fun a t => by simp [Nfa.Move]⟩

/-! ## Closing the collections -/

/-- The exploration after the given sets were met. -/
def Exploration.intern (e : Exploration) (sets : List StateSet) : Exploration :=
  { e with interned := e.interned.insertMany sets }

variable {e : Exploration}

theorem close_eq_ok (hclosed : ∀ e ∈ nfa.edges, e.target ∈ nfa.relation) (he : e.worklist = [])
    {seeds : List StateName} (hseeds : ∀ s ∈ seeds, s ∈ nfa.relation) :
    ∃ T, close nfa seeds e = .ok (T, e.intern [T]) ∧ nfa.IsClosure (· ∈ seeds) T := by
  obtain ⟨T, hrun, hT⟩ := nfa.saturate_eq_ok hclosed hseeds
  refine ⟨T, ?_, hT⟩
  simp only [close, he, hrun, ne_eq, not_true_eq_false, if_false, Exploration.intern,
    Std.ExtTreeSet.insertMany_list_singleton]

/-- Closing collections one after the other keeps their symbols and gives the closure of each. -/
theorem closeAll_eq_ok (hclosed : ∀ e ∈ nfa.edges, e.target ∈ nfa.relation) (he : e.worklist = [])
    {collections : List (String × StateSet)} (hmem : ∀ p ∈ collections, ∀ t ∈ p.2, t ∈ nfa.relation) :
    ∃ row : CompositeRow, closeAll nfa collections e = .ok (row, e.intern (row.map Prod.snd)) ∧
      row.map Prod.fst = collections.map Prod.fst ∧
      ∀ a T, (a, T) ∈ row ↔ ∃ targets, (a, targets) ∈ collections ∧ nfa.IsClosure (· ∈ targets) T := by
  induction collections generalizing e with
  | nil => exact ⟨[], by simp [closeAll, Exploration.intern], rfl, by simp⟩
  | cons p rest ih =>
      obtain ⟨b, targets⟩ := p
      have hseeds : ∀ t ∈ targets.toList, t ∈ nfa.relation := by
        intro t ht
        exact hmem _ List.mem_cons_self t (Std.ExtTreeSet.mem_toList.1 ht)
      obtain ⟨U, hclose, hU⟩ := close_eq_ok hclosed he hseeds
      have hU : nfa.IsClosure (· ∈ targets) U := hU.congr fun s => Std.ExtTreeSet.mem_toList
      obtain ⟨row, hrow, hkeys, hall⟩ := ih (e := e.intern [U]) he fun p hp =>
        hmem p (List.mem_cons_of_mem _ hp)
      refine ⟨(b, U) :: row, ?_, by simp [hkeys], ?_⟩
      · simp only [closeAll, hclose, hrow, bind, Except.bind]
        simp [Exploration.intern, pure, Except.pure, Std.ExtTreeSet.insertMany_cons]
      · intro a T
        rw [List.mem_cons, hall]
        constructor
        · rintro (h | ⟨others, hmem, hT⟩)
          · obtain ⟨rfl, rfl⟩ := Prod.mk.inj h
            exact ⟨targets, List.mem_cons_self, hU⟩
          · exact ⟨others, List.mem_cons_of_mem _ hmem, hT⟩
        · rintro ⟨others, hmem, hT⟩
          rcases List.mem_cons.1 hmem with h | hmem
          · obtain ⟨rfl, rfl⟩ := Prod.mk.inj h
            exact Or.inl (Prod.ext rfl (hT.unique hU))
          · exact Or.inr ⟨others, hmem, hT⟩

theorem Collects.mem_relation (hM : Collects m (nfa.Move S)) (hclosed : ∀ e ∈ nfa.edges, e.target ∈ nfa.relation) :
    ∀ p ∈ m.toList, ∀ t ∈ p.2, t ∈ nfa.relation := by
  rintro ⟨a, targets⟩ hp t ht
  have ha : m[a]? = some targets := Std.ExtTreeMap.mem_toList_iff_getElem?_eq_some.1 hp
  obtain ⟨_, _, hedge⟩ := (hM.mem_collection ha t).1 ht
  exact hclosed _ hedge

/-- The edges out of a set of states of the automaton can be found, and they are its row. -/
theorem exists_row (hclosed : ∀ e ∈ nfa.edges, e.target ∈ nfa.relation) (he : e.worklist = [])
    (hS : ∀ s ∈ S, s ∈ nfa.relation) : ∃ m row, moves nfa S = .ok m ∧
      closeAll nfa m.toList e = .ok (row, e.intern (row.map Prod.snd)) ∧ nfa.IsRow S row := by
  obtain ⟨m, hm, hM⟩ := moves_eq_ok hS
  have hlist : ∀ {a targets}, (a, targets) ∈ m.toList ↔ m[a]? = some targets :=
    Std.ExtTreeMap.mem_toList_iff_getElem?_eq_some
  obtain ⟨row, hrow, hkeys, hall⟩ := closeAll_eq_ok hclosed he (hM.mem_relation hclosed)
  refine ⟨m, row, hm, hrow, ?_, ?_⟩
  · have hordered := Std.ExtTreeMap.ordered_keys (t := m)
    rw [← Std.ExtTreeMap.map_fst_toList_eq_keys, ← hkeys] at hordered
    exact List.pairwise_map.1 hordered
  · intro a T
    rw [hall]
    constructor
    · rintro ⟨targets, hp, hT⟩
      have ha := hlist.1 hp
      have hmem : a ∈ m := Std.ExtTreeMap.mem_iff_isSome_getElem?.2 (by simp [ha])
      exact ⟨hM.nonempty a hmem, hT.congr (hM.mem_collection ha)⟩
    · rintro ⟨hne, hT⟩
      obtain ⟨targets, ha⟩ := hM.exists_collection hne
      exact ⟨targets, hlist.2 ha, hT.congr fun t => (hM.mem_collection ha t).symm⟩

end Subset

end Automata
