/-
# Numbering the sets of states

The sets that were resolved are numbered in the order in which they were recorded.  With a number for each, the
edges between sets become the edges of a deterministic automaton, and the sets that hold the exit become its
accepting states.  That all of them have edges of their own is checked when the automaton is put together.
-/
import Automata.Dfa
import Automata.Event
import Automata.Roster
import Automata.Subset.Fault

namespace Automata.Subset

/-- The number of a set: its position among those resolved. -/
def number (resolved : Roster StateSet CompositeRow) (set : StateSet) : Except Fault Nat :=
  match resolved.indexOf? set with
  | some id => .ok id
  | none => .error (.unresolved set)

/-- The edges of a set with the numbers of the sets they lead to. -/
def numberRow (resolved : Roster StateSet CompositeRow) :
    CompositeRow → Except Fault (List (String × Nat))
  | [] => .ok []
  | (symbol, set) :: rest => do
      let id ← number resolved set
      let row ← numberRow resolved rest
      return (symbol, id) :: row

/-- The edges of all sets, under their numbers from `id` on. -/
def numberRows (resolved : Roster StateSet CompositeRow) :
    Nat → List (StateSet × CompositeRow) →
      Except Fault (List (Nat × Std.ExtTreeMap String Nat))
  | _, [] => .ok []
  | id, (_, row) :: rest => do
      let row ← numberRow resolved row
      let rows ← numberRows resolved (id + 1) rest
      return (id, .ofList row) :: rows

/-- The numbers of the sets that hold the exit. -/
def accepting (exit : StateName) (sets : List StateSet) : Std.ExtTreeSet Nat :=
  .ofList ((sets.zipIdx.filter fun (set, _) => set.contains exit).map Prod.snd)

/-- Makes the parts an automaton. -/
def ofParts (start : Nat) (accept : Std.ExtTreeSet Nat)
    (relation : Std.ExtTreeMap Nat (Std.ExtTreeMap String Nat)) : Except Fault Dfa :=
  let dfa : Dfa := ⟨start, accept, relation⟩
  if start ∈ relation then
    if ∀ s ∈ accept.toList, s ∈ relation then
      if ∀ e ∈ dfa.edges, e.target ∈ relation then .ok dfa else .error .missingTarget
    else .error .missingAccepting
  else .error .missingStart

/-- The checks together ask for a well-formed automaton. -/
theorem ofParts_eq_ok_iff {start : Nat} {accept : Std.ExtTreeSet Nat}
    {relation : Std.ExtTreeMap Nat (Std.ExtTreeMap String Nat)} {dfa : Dfa} :
    ofParts start accept relation = .ok dfa ↔ dfa.WellFormed ∧ dfa = ⟨start, accept, relation⟩ := by
  constructor
  · intro h
    rw [ofParts] at h
    split at h
    next hstart =>
      split at h
      next haccept =>
        split at h
        next htargets =>
          cases h
          exact ⟨⟨hstart, haccept, htargets⟩, rfl⟩
        · cases h
      · cases h
    · cases h
  · rintro ⟨⟨hstart, haccept, htargets⟩, rfl⟩
    rw [ofParts, if_pos hstart, if_pos haccept, if_pos htargets]

end Automata.Subset
