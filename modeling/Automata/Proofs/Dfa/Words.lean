/-
# Where words end

A word that is read without a missing edge ends at a state (`Walk.EndsAt`), and at one only.  Taken apart at its last
symbol, a word ends where the edge with this symbol leads to from the state at which the word without it ends
(`endsAt_concat_iff`), so which words end where is determined by the start and the edges.

Two automata are compared by their starts, states, edges and accepting states (`ext_target`); how they are stored does
not matter.
-/
import Automata.Dfa

namespace Automata.Dfa

/-- The word was read to its end, and the walk ends at the state. -/
def Walk.EndsAt (walk : Walk) (id : Nat) : Prop := walk.stuck = false ∧ walk.path.getLast? = some id

variable {dfa dfa' : Dfa} {s id id' : Nat} {a : String} {w : List String}

theorem path_walkFrom_ne_nil (dfa : Dfa) (id : Nat) (w : List String) : (dfa.walkFrom id w).path ≠ [] := by
  cases w with
  | nil => exact List.cons_ne_nil _ _
  | cons a w =>
      rw [walkFrom]
      split
      · exact List.cons_ne_nil _ _
      · exact List.cons_ne_nil _ _

/-! ## Ends of words -/

theorem Walk.EndsAt.unique {walk : Walk} (h : walk.EndsAt id) (h' : walk.EndsAt id') : id = id' :=
  Option.some.inj (h.2.symm.trans h'.2)

theorem endsAt_walkFrom_nil_iff : (dfa.walkFrom s []).EndsAt id ↔ s = id := by
  simp [Walk.EndsAt, walkFrom]

theorem endsAt_walkFrom_cons_iff : (dfa.walkFrom s (a :: w)).EndsAt id ↔
    ∃ t, dfa.target? s a = some t ∧ (dfa.walkFrom t w).EndsAt id := by
  cases htarget : dfa.target? s a with
  | none => simp [Walk.EndsAt, walkFrom, htarget]
  | some t =>
      have hlast := List.getLast?_eq_some_getLast (dfa.path_walkFrom_ne_nil t w)
      simp [Walk.EndsAt, walkFrom, htarget, List.getLast?_cons, hlast]

theorem endsAt_walkFrom_concat_iff : (dfa.walkFrom s (w ++ [a])).EndsAt id ↔
    ∃ t, (dfa.walkFrom s w).EndsAt t ∧ dfa.target? t a = some id := by
  induction w generalizing s with
  | nil => simp [endsAt_walkFrom_nil_iff, endsAt_walkFrom_cons_iff]
  | cons b w ih =>
      simp only [List.cons_append, endsAt_walkFrom_cons_iff, ih]
      constructor
      · rintro ⟨u, hu, t, ht, hid⟩
        exact ⟨t, ⟨u, hu, ht⟩, hid⟩
      · rintro ⟨t, ⟨u, hu, ht⟩, hid⟩
        exact ⟨u, hu, t, ht, hid⟩

theorem endsAt_nil_iff : (dfa.walk []).EndsAt id ↔ dfa.start = id := endsAt_walkFrom_nil_iff

/-- A word ends where its last symbol leads to from the end of the word without it. -/
theorem endsAt_concat_iff : (dfa.walk (w ++ [a])).EndsAt id ↔
    ∃ t, (dfa.walk w).EndsAt t ∧ dfa.target? t a = some id :=
  endsAt_walkFrom_concat_iff

theorem accept_walkFrom (h : (dfa.walkFrom s w).EndsAt id) :
    (dfa.walkFrom s w).accept = dfa.isAccepting id := by
  induction w generalizing s with
  | nil =>
      obtain rfl := endsAt_walkFrom_nil_iff.1 h
      rfl
  | cons a w ih =>
      obtain ⟨t, htarget, ht⟩ := endsAt_walkFrom_cons_iff.1 h
      simpa only [walkFrom, htarget] using ih ht

theorem accepts_eq (h : (dfa.walk w).EndsAt id) : dfa.accepts w = dfa.isAccepting id := accept_walkFrom h

/-! ## What makes an automaton -/

theorem ext_target (hstart : dfa.start = dfa'.start) (hstates : dfa.states = dfa'.states)
    (htarget : ∀ s a, dfa.target? s a = dfa'.target? s a)
    (haccepting : ∀ s, dfa.isAccepting s = dfa'.isAccepting s) : dfa = dfa' := by
  have haccept : dfa.accept = dfa'.accept := by
    refine Std.ExtTreeSet.ext_mem fun s => ?_
    rw [← Std.ExtTreeSet.contains_iff_mem, ← Std.ExtTreeSet.contains_iff_mem]
    exact Bool.eq_iff_iff.1 (haccepting s)
  have hrelation : dfa.relation = dfa'.relation := by
    refine Std.ExtTreeMap.ext_getElem? fun s => ?_
    have hmem : s ∈ dfa.relation ↔ s ∈ dfa'.relation := by
      rw [← Std.ExtTreeMap.mem_keys, ← Std.ExtTreeMap.mem_keys]
      exact iff_of_eq (congrArg (s ∈ ·) hstates)
    rw [Std.ExtTreeMap.mem_iff_isSome_getElem?, Std.ExtTreeMap.mem_iff_isSome_getElem?] at hmem
    have hrow := htarget s
    simp only [target?] at hrow
    cases hs : dfa.relation[s]? <;> cases hs' : dfa'.relation[s]? <;> simp only [hs, hs'] at hmem hrow
    · rfl
    · simp at hmem
    · simp at hmem
    · exact congrArg some (Std.ExtTreeMap.ext_getElem? fun a => hrow a)
  obtain ⟨_, _, _⟩ := dfa
  obtain ⟨_, _, _⟩ := dfa'
  simp_all

end Automata.Dfa
