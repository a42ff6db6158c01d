/-
# Supplies of fresh names

Names are numbers.  A supply hands them out in ascending order from where it was started and is passed on by
whoever takes a name, so one name is never handed out twice.  The name type has a greatest value, `last`;
a supply standing there can still say which name would be next but cannot hand it out, because it would have
nothing to advance to.  Hence `last` itself is never a name in use.
-/

namespace Automata

/-- A supply of the names `next`, `next + 1`, … of a name type whose greatest value is `last`. -/
structure NameSupply (last : Nat) where
  next : Nat
  /-- The supply stays inside the name type. -/
  next_le : next ≤ last := by omega
  deriving DecidableEq

namespace NameSupply

variable {last : Nat}

/-- There is no name left to hand out. -/
structure Exhausted where
  /-- The name the supply stands at. -/
  after : Nat
  deriving DecidableEq

def Exhausted.message (e : Exhausted) : String :=
  "Name supply exhausted after " ++ toString e.after

/-- The supply that starts at `origin`, if the name type has that value. -/
def startingAt? (last origin : Nat) : Option (NameSupply last) :=
  if h : origin ≤ last then some ⟨origin, h⟩ else none

/-- Hands out the next name; a supply with no successor left is not changed. -/
def fresh (s : NameSupply last) : Except Exhausted (Nat × NameSupply last) :=
  if h : s.next < last then .ok (s.next, ⟨s.next + 1, h⟩) else .error ⟨s.next⟩

/-- The name after the next one, if the type has it. -/
def afterNext? (s : NameSupply last) : Option Nat :=
  if s.next < last then some (s.next + 1) else none

theorem eq_of_next_eq {s s' : NameSupply last} (h : s.next = s'.next) : s = s' := by
  cases s
  cases s'
  cases h
  rfl

theorem fresh_eq_ok_iff {s s' : NameSupply last} {n : Nat} :
    s.fresh = .ok (n, s') ↔ n = s.next ∧ s'.next = s.next + 1 := by
  cases s' with
  | mk m hm =>
    unfold fresh
    split
    · simp only [Except.ok.injEq, Prod.mk.injEq, NameSupply.mk.injEq]
      constructor <;> rintro ⟨h, h'⟩ <;> exact ⟨h.symm, h'.symm⟩
    · simp only [reduceCtorEq, false_iff, not_and]
      intro _ h
      omega

theorem fresh_eq_error_iff {s : NameSupply last} {e : Exhausted} :
    s.fresh = .error e ↔ s.next = last ∧ e = ⟨last⟩ := by
  have := s.next_le
  unfold fresh
  split
  · simp; omega
  · have h : s.next = last := by omega
    simp [h, eq_comm]

end NameSupply

/-- The name of an automaton's state. -/
abbrev StateName := Nat

/-- The greatest value of the type of state names, which has 64 bits. -/
def lastState : Nat := UInt64.size - 1

/-- The supply that names the states of automata. -/
abbrev StateSupply := NameSupply lastState

/-- The supply of state names that starts at zero. -/
def StateSupply.initial : StateSupply := ⟨0, by decide⟩

end Automata
