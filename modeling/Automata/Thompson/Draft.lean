/-
# An automaton under construction

The states taken so far with their transitions, and the supply that the next ones come from.  A state is given
an empty list of transitions as soon as it is taken, so the relation has an entry for every state there is.

Each operation checks what it relies on: that a new state is new, that an edge joins states that are there, and in the
end that the relation has an entry for every state it mentions.  Each check has its own `Fault`.  Names taken
before a fault stay taken.
-/
import Automata.Nfa
import Automata.Text.Failure

namespace Automata.Thompson

/-- Why a construction ends without an automaton. -/
inductive Fault where
  /-- There is no name left for a state. -/
  | exhausted (e : NameSupply.Exhausted)
  /-- A new state was there already. -/
  | repeatedState (s : StateName)
  /-- An edge ends outside the relation. -/
  | looseTarget
  /-- An edge starts outside the relation. -/
  | looseSource (s : StateName)
  /-- An operator found fewer fragments than it has operands. -/
  | tooFewFragments
  /-- A concatenation of nothing. -/
  | emptyConcatenation
  /-- A repetition of nothing. -/
  | emptyRepetition
  /-- The construction left no fragment. -/
  | nothingBuilt
  /-- The construction left more than one fragment. -/
  | fragmentsLeft
  /-- The relation lacks the start or the exit. -/
  | missingEnd
  /-- The relation lacks the target of a transition. -/
  | missingTarget
  deriving DecidableEq

def Fault.message : Fault → String
  | .exhausted e => e.message
  | .repeatedState s => "State " ++ toString s ++ " allocated twice"
  | .looseTarget => Text.assertionFailed "self.trans.contains_key(&to)"
  | .looseSource s => Text.unreachableWith ("Edge from unregistered state " ++ toString s)
  | .tooFewFragments => Text.unreachableWith "Fragment stack underflow"
  | .emptyConcatenation => Text.unreachableWith "Empty concatenation"
  | .emptyRepetition => "index out of bounds: the len is 0 but the index is 0"
  | .nothingBuilt => Text.unreachable
  | .fragmentsLeft => Text.assertionFailed "self.built.is_empty()"
  | .missingEnd => Text.assertionFailed "trans.contains_key(&start) && trans.contains_key(&exit)"
  | .missingTarget => Text.assertionFailed "trans.values().flatten().all(|t| trans.contains_key(&t.target))"

/-- What is being built: the names not yet taken, and the relation so far. -/
structure Draft where
  supply : StateSupply
  /-- The transitions of the states taken so far. -/
  relation : Relation
  deriving DecidableEq

/-- A step of the construction; a fault keeps the draft it was met with. -/
abbrev Construction := EStateM Fault Draft

/-- Takes a name and gives it an empty list of transitions. -/
def newState : Construction StateName := do
  let draft ← get
  match draft.supply.fresh with
  | .error e => throw (.exhausted e)
  | .ok (s, supply) =>
      set { draft with supply }
      if s ∈ draft.relation then throw (.repeatedState s)
      set { supply, relation := draft.relation.insert s [] : Draft }
      return s

/-- Adds a transition at the end of those of `source`. -/
def connect (source : StateName) (label : Option String) (target : StateName) :
    Construction Unit := do
  let draft ← get
  if target ∉ draft.relation then throw .looseTarget
  match draft.relation[source]? with
  | none => throw (.looseSource source)
  | some ts =>
      let ts := ts ++ [Transition.mk label target]
      set { draft with relation := draft.relation.insert source ts }

/-- Makes the parts an automaton. -/
def ofParts (start exit : StateName) (relation : Relation) : Construction Nfa :=
  let nfa : Nfa := ⟨start, exit, relation⟩
  if start ∈ relation ∧ exit ∈ relation then
    if ∀ e ∈ nfa.edges, e.target ∈ relation then pure nfa else throw .missingTarget
  else throw .missingEnd

/-! ## What they give -/

section

variable {α β : Type} {m : Construction α} {k : α → Construction β} {d d' : Draft} {a : α} {fault : Fault}

theorem run_bind_of_ok (h : m.run d = .ok a d') : (m >>= k).run d = (k a).run d' := by
  rw [EStateM.run_bind, h]

theorem run_bind_of_error (h : m.run d = .error fault d') : (m >>= k).run d = .error fault d' := by
  rw [EStateM.run_bind, h]

theorem run_bind_eq_ok {b : β} (h : (m >>= k).run d = .ok b d') :
    ∃ a d₁, m.run d = .ok a d₁ ∧ (k a).run d₁ = .ok b d' := by
  cases hm : m.run d with
  | ok a d₁ => exact ⟨a, d₁, rfl, (run_bind_of_ok hm).symm.trans h⟩
  | error fault d₁ => cases (run_bind_of_error hm).symm.trans h

theorem newState_eq_ok {s : StateName} {supply : StateSupply} (hfresh : d.supply.fresh = .ok (s, supply))
    (hnew : s ∉ d.relation) : newState.run d = .ok s ⟨supply, d.relation.insert s []⟩ := by
  simp only [newState, EStateM.run_bind, EStateM.run_get, hfresh, EStateM.run_set, hnew, if_false]
  rfl

theorem newState_eq_error {e : NameSupply.Exhausted} (hfresh : d.supply.fresh = .error e) :
    newState.run d = .error (.exhausted e) d := by
  simp only [newState, EStateM.run_bind, EStateM.run_get, hfresh]
  rfl

theorem connect_eq_ok {x y : StateName} {l : Option String} {ts : List Transition} (hx : d.relation[x]? = some ts)
    (hy : y ∈ d.relation) :
    (connect x l y).run d = .ok () { d with relation := d.relation.insert x (ts ++ [⟨l, y⟩]) } := by
  simp [connect, hx, hy]

/-- The checks together ask for a well-formed automaton. -/
theorem ofParts_eq_ok_iff {start exit : StateName} {relation : Relation} {nfa : Nfa} :
    (ofParts start exit relation).run d = .ok nfa d' ↔ nfa.WellFormed ∧ nfa = ⟨start, exit, relation⟩ ∧ d' = d := by
  constructor
  · intro h
    rw [ofParts] at h
    split at h
    next hends =>
      split at h
      next htargets =>
        cases h
        exact ⟨⟨hends.1, hends.2, htargets⟩, rfl, rfl⟩
      · cases h
    · cases h
  · rintro ⟨⟨hstart, hexit, htargets⟩, rfl, rfl⟩
    rw [ofParts, if_pos ⟨hstart, hexit⟩, if_pos htargets]
    rfl

end

end Automata.Thompson
