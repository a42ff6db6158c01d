/-
# Breadth-first numbers

The states of an automaton are numbered breadth first when every state but 0, the start, is entered from a smaller one
by an edge that comes before all edges into it and into greater states; edges are ordered by source and then by symbol
(`Dfa.BreadthFirst`).

Such numbers say nothing but what the words say.  The access word of a state is the least word that ends there, shorter
words first and words of one length symbol by symbol; every state has one, and the greater state has the greater
access word (`BreadthFirst.lt_iff_precedes`).  One induction gives both: the access word of a state precedes all words
that end there or at a greater state (`BreadthFirst.exists_least`).

Hence two automata with such numbers are equal as soon as the same words are read to one end in both and the same
words are accepted (`BreadthFirst.eq_of_alike`).
-/
import Mathlib.Data.List.Shortlex
import Mathlib.Data.String.Basic
import Automata.Proofs.Dfa.Words

namespace Automata

/-! ## Words in shortlex order -/

/-- Shorter words come first, and words of one length are compared symbol by symbol, symbols by their characters. -/
abbrev Precedes : List String → List String → Prop := List.Shortlex (· < ·)

section Order

variable {a b : String} {u v w : List String}

theorem Precedes.irrefl (w : List String) : ¬ Precedes w w := fun h => Std.Asymm.asymm w w h h

theorem lex_append_of_length_eq {α : Type} {r : α → α → Prop} {u v : List α} (h : List.Lex r u v)
    (hlength : u.length = v.length) (x y : List α) : List.Lex r (u ++ x) (v ++ y) := by
  induction h with
  | nil => cases hlength
  | rel hab => exact .rel hab
  | cons _ ih => exact .cons (ih (Nat.succ.inj hlength))

theorem Precedes.concat (h : Precedes u v) (a b : String) : Precedes (u ++ [a]) (v ++ [b]) := by
  rcases List.shortlex_def.1 h with hlt | ⟨heq, hlex⟩
  · exact List.Shortlex.of_length_lt (by simpa using hlt)
  · exact List.Shortlex.of_lex (by simpa using heq) (lex_append_of_length_eq hlex heq [a] [b])

theorem Precedes.concat_left (h : a < b) (w : List String) : Precedes (w ++ [a]) (w ++ [b]) :=
  ((List.shortlex_singleton_iff a b).2 h).append_left w

end Order

/-! ## Breadth-first numbers -/

namespace Dfa

/-- The states are numbered from the start on, every other one when an edge, by source and symbol, first enters it. -/
structure BreadthFirst (dfa : Dfa) : Prop where
  wellFormed : dfa.WellFormed
  start : dfa.start = 0
  states : dfa.states = List.range dfa.size
  first : ∀ j < dfa.size, j ≠ 0 → ∃ i a, i < j ∧ dfa.target? i a = some j ∧
    ∀ i' b k, dfa.target? i' b = some k → j ≤ k → i < i' ∨ i = i' ∧ (a = b ∨ a < b)

/-- The word is the least of those that end at the state. -/
def Access (dfa : Dfa) (w : List String) (id : Nat) : Prop :=
  (dfa.walk w).EndsAt id ∧ ∀ v, (dfa.walk v).EndsAt id → w = v ∨ Precedes w v

variable {dfa dfa' : Dfa} {i j id : Nat} {a : String} {u v w : List String}

theorem Access.unique (hv : dfa.Access v id) (hw : dfa.Access w id) : v = w := by
  rcases hv.2 w hw.1 with h | h
  · exact h
  · rcases hw.2 v hv.1 with h' | h'
    · exact h'.symm
    · exact absurd h' (Std.Asymm.asymm v w h)

namespace BreadthFirst

theorem mem_states_iff (h : dfa.BreadthFirst) : id ∈ dfa.relation ↔ id < dfa.size := by
  rw [← Std.ExtTreeMap.mem_keys, ← Dfa.states, h.states, List.mem_range]

theorem target_lt (h : dfa.BreadthFirst) (hj : dfa.target? i a = some j) : j < dfa.size :=
  h.mem_states_iff.1 (h.wellFormed.2.2 _ (mem_edges_iff.2 hj))

theorem endsAt_lt (h : dfa.BreadthFirst) (hw : (dfa.walk w).EndsAt id) : id < dfa.size := by
  rcases List.eq_nil_or_concat' w with rfl | ⟨w, a, rfl⟩
  · obtain rfl := endsAt_nil_iff.1 hw
    exact h.mem_states_iff.1 h.wellFormed.1
  · obtain ⟨i, -, hid⟩ := endsAt_concat_iff.1 hw
    exact h.target_lt hid

/-- Some word that ends at a state precedes all other words that end there or at a greater state. -/
theorem exists_least (h : dfa.BreadthFirst) (hj : j < dfa.size) : ∃ w, (dfa.walk w).EndsAt j ∧
    ∀ k v, j ≤ k → (dfa.walk v).EndsAt k → w = v ∨ Precedes w v := by
  induction j using Nat.strongRecOn with
  | ind j ih =>
      by_cases hzero : j = 0
      · refine ⟨[], endsAt_nil_iff.2 (h.start.trans hzero.symm), ?_⟩
        intro k v _ _
        exact (List.shortlex_nil_or_eq_nil v).symm.imp_left Eq.symm
      · -- The least word of `j` is that of the state that leads there first, with one more symbol.
        obtain ⟨i, a, hij, hjump, hfirst⟩ := h.first j hj hzero
        obtain ⟨w, hw, hleast⟩ := ih i hij (Nat.lt_trans hij hj)
        refine ⟨w ++ [a], endsAt_concat_iff.2 ⟨i, hw, hjump⟩, ?_⟩
        intro k v hjk hv
        rcases List.eq_nil_or_concat' v with rfl | ⟨v, b, rfl⟩
        · -- The empty word ends at the start, which is no greater state.
          have hk := endsAt_nil_iff.1 hv
          rw [h.start] at hk
          omega
        · obtain ⟨i', hv, hk⟩ := endsAt_concat_iff.1 hv
          rcases hfirst i' b k hk hjk with hlt | ⟨rfl, hab⟩
          · rcases hleast i' v (Nat.le_of_lt hlt) hv with rfl | hprec
            · exact absurd (hw.unique hv) (Nat.ne_of_lt hlt)
            · exact Or.inr (hprec.concat a b)
          · rcases hleast i v (Nat.le_refl i) hv with rfl | hprec
            · exact hab.imp (congrArg fun c => w ++ [c]) fun hab => .concat_left hab w
            · exact Or.inr (hprec.concat a b)

theorem exists_access (h : dfa.BreadthFirst) (hid : id < dfa.size) : ∃ w, dfa.Access w id := by
  obtain ⟨w, hw, hleast⟩ := h.exists_least hid
  exact ⟨w, hw, fun v hv => hleast id v (Nat.le_refl id) hv⟩

theorem precedes_of_lt (h : dfa.BreadthFirst) (hu : dfa.Access u i) (hv : dfa.Access v j) (hij : i < j) :
    Precedes u v := by
  obtain ⟨w, hw, hleast⟩ := h.exists_least (h.endsAt_lt hu.1)
  obtain rfl : w = u := Access.unique ⟨hw, fun v hv => hleast i v (Nat.le_refl i) hv⟩ hu
  rcases hleast j v (Nat.le_of_lt hij) hv.1 with rfl | hprec
  · exact absurd (hu.1.unique hv.1) (Nat.ne_of_lt hij)
  · exact hprec

/-- The greater state has the greater access word. -/
theorem lt_iff_precedes (h : dfa.BreadthFirst) (hu : dfa.Access u i) (hv : dfa.Access v j) :
    i < j ↔ Precedes u v := by
  refine ⟨h.precedes_of_lt hu hv, fun hprec => ?_⟩
  rcases Nat.lt_trichotomy i j with hij | rfl | hji
  · exact hij
  · exact absurd (hu.unique hv ▸ hprec) (Precedes.irrefl v)
  · exact absurd (h.precedes_of_lt hv hu hji) (Std.Asymm.asymm u v hprec)

end BreadthFirst

/-! ## Numbers from words -/

/-- Both words are read to the same end. -/
def Meets (dfa : Dfa) (v w : List String) : Prop := ∃ id, (dfa.walk v).EndsAt id ∧ (dfa.walk w).EndsAt id

namespace BreadthFirst

theorem access_of_alike (halike : ∀ v w, dfa.Meets v w ↔ dfa'.Meets v w) (hw : dfa.Access w i)
    (hj : (dfa'.walk w).EndsAt j) : dfa'.Access w j := by
  refine ⟨hj, ?_⟩
  intro v hv
  obtain ⟨i', hw', hv'⟩ := (halike w v).2 ⟨j, hj, hv⟩
  obtain rfl := hw.1.unique hw'
  exact hw.2 v hv'

theorem le_of_alike (h : dfa.BreadthFirst) (h' : dfa'.BreadthFirst)
    (halike : ∀ v w, dfa.Meets v w ↔ dfa'.Meets v w) (hi : dfa.Access w i) (hj : dfa'.Access w j) : i ≤ j := by
  induction i using Nat.strongRecOn generalizing j w with
  | ind i ih =>
      by_contra hlt
      -- The access word of `j` in the first automaton precedes `w`, so in the second it ends below `j`.
      have hji : j < i := Nat.lt_of_not_le hlt
      obtain ⟨v, hv⟩ := h.exists_access (Nat.lt_trans hji (h.endsAt_lt hi.1))
      obtain ⟨k, hk, -⟩ := (halike v v).1 ⟨j, hv.1, hv.1⟩
      have hk := access_of_alike halike hv hk
      have hkj : k < j := (h'.lt_iff_precedes hk hj).2 (h.precedes_of_lt hv hi hji)
      exact absurd (ih j hji hv hk) (Nat.not_le_of_lt hkj)

theorem endsAt_of_alike (h : dfa.BreadthFirst) (h' : dfa'.BreadthFirst)
    (halike : ∀ v w, dfa.Meets v w ↔ dfa'.Meets v w) (hv : (dfa.walk v).EndsAt id) : (dfa'.walk v).EndsAt id := by
  obtain ⟨w, hw⟩ := h.exists_access (h.endsAt_lt hv)
  obtain ⟨j, hwj, hvj⟩ := (halike w v).1 ⟨id, hw.1, hv⟩
  have hj := access_of_alike halike hw hwj
  have halike' := fun v w => (halike v w).symm
  obtain rfl : id = j := Nat.le_antisymm (le_of_alike h h' halike hw hj) (le_of_alike h' h halike' hj hw)
  exact hvj

/-! What ends, edges and accepting states of one automaton carry over to another in which words end at the same
numbers. -/

theorem size_le_of_endsAt (h : dfa.BreadthFirst) (h' : dfa'.BreadthFirst)
    (hends : ∀ {w id}, (dfa.walk w).EndsAt id → (dfa'.walk w).EndsAt id) : dfa.size ≤ dfa'.size := by
  refine Nat.le_of_not_lt fun hlt => ?_
  obtain ⟨w, hw⟩ := h.exists_access hlt
  exact Nat.lt_irrefl _ (h'.endsAt_lt (hends hw.1))

theorem source_lt (h : dfa.BreadthFirst) (hj : dfa.target? i a = some j) : i < dfa.size := by
  rw [← h.mem_states_iff, Std.ExtTreeMap.mem_iff_isSome_getElem?]
  cases hrow : dfa.relation[i]? with
  | none => simp [target?, hrow] at hj
  | some _ => rfl

theorem target_of_endsAt (h : dfa.BreadthFirst)
    (hends : ∀ {w id}, (dfa.walk w).EndsAt id → (dfa'.walk w).EndsAt id) (hj : dfa.target? i a = some j) :
    dfa'.target? i a = some j := by
  obtain ⟨w, hw⟩ := h.exists_access (h.source_lt hj)
  obtain ⟨i', hi', hj'⟩ := endsAt_concat_iff.1 (hends (endsAt_concat_iff.2 ⟨i, hw.1, hj⟩))
  obtain rfl := hi'.unique (hends hw.1)
  exact hj'

theorem isAccepting_of_endsAt (h : dfa.BreadthFirst)
    (hends : ∀ {w id}, (dfa.walk w).EndsAt id → (dfa'.walk w).EndsAt id)
    (haccepts : ∀ w, dfa.accepts w = dfa'.accepts w) (hid : dfa.isAccepting id = true) :
    dfa'.isAccepting id = true := by
  have hstate : id < dfa.size := h.mem_states_iff.1
    (h.wellFormed.2.1 id (Std.ExtTreeSet.mem_toList.2 (Std.ExtTreeSet.contains_iff_mem.1 hid)))
  obtain ⟨w, hw⟩ := h.exists_access hstate
  rw [← accepts_eq (hends hw.1), ← haccepts, accepts_eq hw.1, hid]

/-- Two automata with breadth-first numbers are equal when the same words meet in both and the same words are
accepted. -/
theorem eq_of_alike (h : dfa.BreadthFirst) (h' : dfa'.BreadthFirst)
    (halike : ∀ v w, dfa.Meets v w ↔ dfa'.Meets v w) (haccepts : ∀ w, dfa.accepts w = dfa'.accepts w) :
    dfa = dfa' := by
  have hends : ∀ {w id}, (dfa.walk w).EndsAt id → (dfa'.walk w).EndsAt id :=
    endsAt_of_alike h h' halike
  have hends' : ∀ {w id}, (dfa'.walk w).EndsAt id → (dfa.walk w).EndsAt id :=
    endsAt_of_alike h' h fun v w => (halike v w).symm
  refine ext_target (h.start.trans h'.start.symm) ?_ ?_ ?_
  · rw [h.states, h'.states, Nat.le_antisymm (size_le_of_endsAt h h' hends) (size_le_of_endsAt h' h hends')]
  · intro i a
    exact Option.ext fun j => ⟨h.target_of_endsAt hends, h'.target_of_endsAt hends'⟩
  · intro id
    exact Bool.eq_iff_iff.2 ⟨h.isAccepting_of_endsAt hends haccepts,
      h'.isAccepting_of_endsAt hends' fun w => (haccepts w).symm⟩

end BreadthFirst

end Dfa

end Automata
